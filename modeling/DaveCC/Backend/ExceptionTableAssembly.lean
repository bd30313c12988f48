import DaveCC.Backend.ExceptionTableReading

/-!
# What the directives of an exception table assemble to

The directives of a table have one possible image, the cells of the table between the padding
of the section, and they are refused only for a negative distance between code labels.
-/

namespace DaveCC.Backend

open DaveCC.Arith

/-- The distance that `DaveEHPrintExceptTable` has printed between two instructions. -/
def printedValue (offsetOf : ℤ → BitVec 64) (fromId toId : ℤ) : BitVec 64 :=
  if fromId = toId then 0 else offsetOf toId - (if fromId = 0 then 0 else offsetOf fromId)

/-- The distance that `DaveEHEmitGCCExceptTable` adds to the module. -/
def emittedValue (offsetOf : ℤ → BitVec 64) (fromId toId : ℤ) : BitVec 64 :=
  offsetOf toId - (if fromId = 0 then 0 else offsetOf fromId)

/-- The distances of a key that a table needs. -/
def CallSiteKey.distances (value : ℤ → ℤ → BitVec 64) (key : CallSiteKey) : List (BitVec 64) :=
  [value 0 key.tryStartId, value key.tryStartId key.tryEndId, value 0 key.landingPadId]

/-- The assembler takes the distances of a key. -/
def CallSiteKey.Accepted (rejectsNegative : Bool) (value : ℤ → ℤ → BitVec 64)
    (key : CallSiteKey) : Prop :=
  ∀ distance ∈ key.distances value, (rejectsNegative && distance.msb) = false

def LSDACallSiteGroup.row (value : ℤ → ℤ → BitVec 64) (actions : List ℤ)
    (group : LSDACallSiteGroup) : LSDARow :=
  { start := (value 0 group.key.tryStartId).toNat
    length := (value group.key.tryStartId group.key.tryEndId).toNat
    landingPad := (value 0 group.key.landingPadId).toNat
    filters := group.actionsIn actions }

section Assembling

variable {offsetOf : ℤ → BitVec 64} {rejectsNegative : Bool} {position : LSDALabel → Nat}

variable {start : Nat} {cells : List LSDACell}

theorem assembleFrom_append_eq_some {first second : List LSDADirective} :
    assembleFrom offsetOf rejectsNegative position start (first ++ second) = some cells ↔
      ∃ before after, assembleFrom offsetOf rejectsNegative position start first = some before ∧
        assembleFrom offsetOf rejectsNegative position (start + before.length) second =
          some after ∧ cells = before ++ after := by
  induction first generalizing start cells with
  | nil =>
    constructor
    · intro assembled
      exact ⟨[], cells, rfl, assembled, rfl⟩
    · rintro ⟨before, after, none, assembled, rfl⟩
      cases none
      exact assembled
  | cons directive first ih =>
    rw [List.cons_append, assembleFrom, assembleFrom]
    cases directive.assemble offsetOf rejectsNegative position start with
    | none => simp
    | some here =>
      simp only [Option.bind_eq_bind, Option.bind_some, Option.bind_eq_some_iff, ih,
        Option.some.injEq]
      constructor
      · rintro ⟨_, ⟨before, after, assembled, later, rfl⟩, rfl⟩
        refine ⟨here ++ before, after, ⟨before, assembled, rfl⟩, ?_, ?_⟩
        · rw [List.length_append, ← Nat.add_assoc]
          exact later
        · rw [List.append_assoc]
      · rintro ⟨_, after, ⟨before, assembled, rfl⟩, later, rfl⟩
        rw [List.length_append, ← Nat.add_assoc] at later
        exact ⟨before ++ after, ⟨before, after, assembled, later, rfl⟩,
          (List.append_assoc _ _ _).symm⟩

theorem assembleFrom_singleton {directive : LSDADirective} :
    assembleFrom offsetOf rejectsNegative position start [directive] =
      directive.assemble offsetOf rejectsNegative position start := by
  rw [assembleFrom]
  cases directive.assemble offsetOf rejectsNegative position start with
  | none => rfl
  | some cells =>
    simp [assembleFrom]

/-- A way to write a distance between instructions has a value. -/
def Writes (offsetOf : ℤ → BitVec 64) (offset : ℤ → ℤ → LSDADirective)
    (value : ℤ → ℤ → BitVec 64) : Prop :=
  ∀ rejectsNegative position start fromId toId,
    (offset fromId toId).assemble offsetOf rejectsNegative position start =
      unsignedOperand rejectsNegative (value fromId toId)

omit offsetOf in
theorem CodeLabel.value_start (offsetOf : ℤ → BitVec 64) (fromId : ℤ) :
    CodeLabel.value offsetOf (if fromId = 0 then .function else .insn fromId) =
      if fromId = 0 then 0 else offsetOf fromId := by
  split <;> rfl

theorem printOffsetFromFunc_writes :
    Writes offsetOf printOffsetFromFunc (printedValue offsetOf) := by
  intro rejectsNegative position start fromId toId
  rw [printOffsetFromFunc, printedValue]
  split
  · have positive : (rejectsNegative && (0 : BitVec 64).msb) = false := Bool.and_false _
    rw [unsignedOperand, positive]
    rfl
  · rw [LSDADirective.assemble, CodeLabel.value_start]
    rfl

theorem offsetLabels_writes : Writes offsetOf offsetLabels (emittedValue offsetOf) := by
  intro rejectsNegative position start fromId toId
  rw [offsetLabels, emittedValue, LSDADirective.assemble, CodeLabel.value_start]
  rfl

theorem unsignedOperand_eq_some {value : BitVec 64} :
    unsignedOperand rejectsNegative value = some cells ↔
      (rejectsNegative && value.msb) = false ∧ bytesOf (uleb128 10 value.toNat) = cells := by
  rw [unsignedOperand]
  cases rejectsNegative && value.msb with
  | true => simp
  | false => simp

/-- The directives of a call site assemble to its cells. -/
theorem assemble_site {offset : ℤ → ℤ → LSDADirective} {value : ℤ → ℤ → BitVec 64}
    (writes : Writes offsetOf offset value) {group : LSDACallSiteGroup} {actions : List ℤ}
    {first start : Nat} {cells : List LSDACell} :
    assembleFrom offsetOf rejectsNegative position start
        (callSiteDirectives offset group.key first) = some cells ↔
      group.key.Accepted rejectsNegative value ∧
        cells = siteCells first (group.row value actions) := by
  have action (offset : Nat) : (LSDADirective.uleb128 (first + 1)).assemble offsetOf rejectsNegative
      position offset = some (bytesOf (Arith.uleb128 10 (first + 1))) := rfl
  simp only [callSiteDirectives, assembleFrom, writes _ _ _ _ _, Option.bind_eq_bind,
    Option.bind_eq_some_iff, unsignedOperand_eq_some, action, Option.some.injEq,
    CallSiteKey.Accepted, CallSiteKey.distances, List.forall_mem_cons]
  constructor
  · rintro ⟨_, ⟨start, rfl⟩, _, ⟨_, ⟨length, rfl⟩, _, ⟨_, ⟨landingPad, rfl⟩, _,
      ⟨_, rfl, _, rfl, rfl⟩, rfl⟩, rfl⟩, rfl⟩
    exact ⟨⟨start, length, landingPad, fun _ absent => absurd absent (List.not_mem_nil)⟩,
      by simp only [siteCells, LSDACallSiteGroup.row, List.append_nil]⟩
  · rintro ⟨⟨start, length, landingPad, -⟩, rfl⟩
    refine ⟨_, ⟨start, rfl⟩, _, ⟨_, ⟨length, rfl⟩, _, ⟨_, ⟨landingPad, rfl⟩, _,
      ⟨_, rfl, _, rfl, rfl⟩, rfl⟩, rfl⟩, ?_⟩
    simp [siteCells, LSDACallSiteGroup.row]

/-- The offsets of chains that follow one another. -/
def chainOffsets : Nat → List LSDARow → List Nat
  | _, [] => []
  | first, row :: rows => first :: chainOffsets (first + (chainCells row.filters).length) rows

/-- The directives of call sites assemble to their cells. -/
theorem assemble_sites {offset : ℤ → ℤ → LSDADirective} {value : ℤ → ℤ → BitVec 64}
    (writes : Writes offsetOf offset value) {groups : List LSDACallSiteGroup} {actions : List ℤ}
    {first start : Nat} {cells : List LSDACell} :
    assembleFrom offsetOf rejectsNegative position start
        ((groups.zip (chainOffsets first (groups.map (·.row value actions)))).flatMap fun group =>
          callSiteDirectives offset group.1.key group.2) = some cells ↔
      (∀ group ∈ groups, group.key.Accepted rejectsNegative value) ∧
        cells = sitesCells first (groups.map (·.row value actions)) := by
  induction groups generalizing first start cells with
  | nil => simp [assembleFrom, sitesCells, eq_comm]
  | cons group groups ih =>
    rw [List.map_cons, chainOffsets, List.zip_cons_cons, List.flatMap_cons,
      assembleFrom_append_eq_some, List.forall_mem_cons, sitesCells]
    constructor
    · rintro ⟨before, after, here, later, rfl⟩
      obtain ⟨accepted, rfl⟩ := (@assemble_site _ _ _ _ _ writes _ actions _ _ _).mp here
      obtain ⟨others, rfl⟩ := ih.mp later
      exact ⟨⟨accepted, others⟩, rfl⟩
    · rintro ⟨⟨accepted, others⟩, rfl⟩
      exact ⟨_, _, (assemble_site writes).mpr ⟨accepted, rfl⟩, ih.mpr ⟨others, rfl⟩, rfl⟩

def chainDirectives : List ℤ → List LSDADirective
  | [] => []
  | [filter] => [.sleb128 filter, .sleb128 0]
  | filter :: next :: filters => [.sleb128 filter, .sleb128 1] ++ chainDirectives (next :: filters)

omit offsetOf rejectsNegative position in
/-- The loop over the actions of a group writes its chain. -/
theorem flatMap_actions (filters rest : List ℤ) :
    ((List.range filters.length).flatMap fun index =>
        [LSDADirective.sleb128 ((filters ++ rest).getD index 0),
          .sleb128 (if index + 1 < filters.length then 1 else 0)]) = chainDirectives filters := by
  induction filters with
  | nil => rfl
  | cons filter filters ih =>
    rw [List.length_cons, List.range_succ_eq_map, List.flatMap_cons, List.flatMap_map]
    simp only [List.cons_append, List.getD_cons_zero, List.getD_cons_succ, Nat.zero_add,
      Nat.add_lt_add_iff_right]
    rw [ih]
    cases filters with
    | nil => rfl
    | cons next filters =>
      rw [if_pos (by rw [List.length_cons]; omega)]
      rfl

theorem assemble_chain (filters : List ℤ) (start : Nat) :
    assembleFrom offsetOf rejectsNegative position start (chainDirectives filters) =
      some (chainCells filters) := by
  have record (filter displacement : ℤ) (start : Nat) :
      assembleFrom offsetOf rejectsNegative position start [.sleb128 filter,
        .sleb128 displacement] = some (recordCells filter displacement) := by
    simp only [assembleFrom, LSDADirective.assemble, Option.bind_eq_bind, Option.bind_some,
      List.append_nil]
    rfl
  induction filters generalizing start with
  | nil => rfl
  | cons filter filters ih =>
    cases filters with
    | nil => exact record filter 0 start
    | cons next filters =>
      exact assembleFrom_append_eq_some.mpr ⟨_, _, record filter 1 start, ih _, rfl⟩

/-- The actions of groups assemble to the action table. -/
theorem assemble_actions (value : ℤ → ℤ → BitVec 64) (groups : List LSDACallSiteGroup)
    (actions : List ℤ) (start : Nat) :
    assembleFrom offsetOf rejectsNegative position start
        (actionDirectives groups (groups.flatMap (·.actionsIn actions))) =
      some (chainsCells (groups.map (·.row value actions))) := by
  induction groups generalizing start with
  | nil => rfl
  | cons group groups ih =>
    have count : (group.actionsIn actions).length = group.actionCount := by
      rw [LSDACallSiteGroup.actionsIn, List.length_map, List.length_range]
    have chain := flatMap_actions (group.actionsIn actions) (groups.flatMap (·.actionsIn actions))
    rw [count] at chain
    rw [List.flatMap_cons, actionDirectives, chain, List.drop_left' count]
    exact assembleFrom_append_eq_some.mpr ⟨_, _, assemble_chain _ _, ih _, rfl⟩

variable {typeSymbols : List (Option String)}

/-- The directives of the types assemble to the type table, with a label at each entry. -/
theorem assemble_types :
    assembleFrom offsetOf rejectsNegative position start (typeDirectives typeSymbols) = some cells ↔
      (∀ index < typeSymbols.length,
        position (.ttypeEntry index) = start + 4 * (typeSymbols.length - 1 - index)) ∧
      cells = typeTableCells typeSymbols := by
  induction typeSymbols using List.reverseRecOn generalizing start cells with
  | nil => simp [typeDirectives, typeTableCells, assembleFrom, eq_comm]
  | append_singleton types type ih =>
    have directives : typeDirectives (types ++ [type]) =
        typeEntryDirectives types.length type ++ typeDirectives types := by
      rw [typeDirectives, List.zipIdx_append, List.reverse_append, List.flatMap_append]
      simp [typeDirectives]
    have table : typeTableCells (types ++ [type]) = typeCells type ++ typeTableCells types := by
      simp [typeTableCells]
    have entry (cells : List LSDACell) :
        assembleFrom offsetOf rejectsNegative position start
            (typeEntryDirectives types.length type) = some cells ↔
          position (.ttypeEntry types.length) = start ∧ cells = typeCells type := by
      by_cases placed : position (.ttypeEntry types.length) = start
      · cases type with
        | none => simp [typeEntryDirectives, assembleFrom, LSDADirective.assemble, placed,
            typeCells, eq_comm]
        | some symbol => simp [typeEntryDirectives, assembleFrom, LSDADirective.assemble,
            placed, typeCells, eq_comm]
      · cases type with
        | none => simp [typeEntryDirectives, assembleFrom, LSDADirective.assemble, placed]
        | some symbol => simp [typeEntryDirectives, assembleFrom, LSDADirective.assemble, placed]
    rw [directives, assembleFrom_append_eq_some, table, List.length_append, List.length_singleton]
    constructor
    · rintro ⟨before, after, here, later, rfl⟩
      obtain ⟨placed, rfl⟩ := (entry before).mp here
      obtain ⟨others, rfl⟩ := ih.mp later
      rw [length_typeCells] at others
      refine ⟨?_, rfl⟩
      intro index inside
      by_cases last : index = types.length
      · rw [last, placed]
        omega
      · rw [others index (by omega)]
        omega
    · rintro ⟨places, rfl⟩
      refine ⟨_, _, (entry _).mpr ⟨?_, rfl⟩, ih.mpr ⟨?_, rfl⟩, rfl⟩
      · rw [places types.length (by omega)]
        omega
      · intro index inside
        rw [length_typeCells, places index (by omega)]
        omega

/-! ## Tables -/

/-- The difference of two labels is the count of the cells between them. -/
theorem unsignedOperand_between {first count : Nat} (small : count < 2 ^ 63) :
    unsignedOperand rejectsNegative (BitVec.ofNat 64 (first + count) - BitVec.ofNat 64 first) =
      some (bytesOf (uleb128 10 count)) := by
  have difference : BitVec.ofNat 64 (first + count) - BitVec.ofNat 64 first =
      BitVec.ofNat 64 count := by
    rw [BitVec.ofNat_add, BitVec.add_comm, BitVec.add_sub_cancel]
  have value : (BitVec.ofNat 64 count).toNat = count := by
    exact Nat.mod_eq_of_lt (by omega)
  have positive : (BitVec.ofNat 64 count).msb = false := by
    rw [BitVec.msb_eq_false_iff_two_mul_lt, value]
    omega
  rw [difference, unsignedOperand, value, positive, Bool.and_false]
  rfl

/-- A byte and a size are followed by the label that the size counts from. -/
theorem assemble_sized {encoding : BitVec 8} {left right : LSDALabel} :
    assembleFrom offsetOf rejectsNegative position start
        [.byte encoding, .uleb128Labels left right, .label right] = some cells ↔
      ∃ size, unsignedOperand rejectsNegative
          (BitVec.ofNat 64 (position left) - BitVec.ofNat 64 (position right)) = some size ∧
        position right = start + 1 + size.length ∧ cells = .byte encoding :: size := by
  simp only [assembleFrom, LSDADirective.assemble, Option.bind_eq_bind, Option.bind_some,
    Option.bind_eq_some_iff, List.length_singleton, Option.some.injEq]
  constructor
  · rintro ⟨_, ⟨size, operand, _, ⟨_, placed, rfl⟩, rfl⟩, rfl⟩
    split at placed
    · next there =>
        cases placed
        exact ⟨size, operand, there, by simp⟩
    · cases placed
  · rintro ⟨size, operand, there, rfl⟩
    exact ⟨size, ⟨size, operand, [], ⟨[], if_pos there, rfl⟩, by simp⟩, rfl⟩

theorem assemble_label {label : LSDALabel} :
    assembleFrom offsetOf rejectsNegative position start [.label label] = some cells ↔
      position label = start ∧ cells = [] := by
  rw [assembleFrom_singleton, LSDADirective.assemble]
  split
  · next there => simp [there, eq_comm]
  · next elsewhere => simp [elsewhere]

/-- The zeros up to the next multiple of four. -/
def padding (start : Nat) : List LSDACell :=
  bytesOf (List.replicate ((4 - start % 4) % 4) 0)

/-- The positions of the labels of a table whose body starts at an offset. -/
structure BodyPlaced (position : LSDALabel → Nat) (typeSymbols : List (Option String))
    (rows : List LSDARow) (start : Nat) : Prop where
  csStart : position .csStart = start + 1 + (uleb128 10 (sitesCells 0 rows).length).length
  csEnd : position .csEnd = position .csStart + (sitesCells 0 rows).length
  ttype : typeSymbols.length > 0 → position .ttype = position .csEnd + (chainsCells rows).length
  ttypeEnd : typeSymbols.length > 0 → position .ttypeEnd = start + (bodyCells typeSymbols rows).length
  ttypeEntry : typeSymbols.length > 0 → ∀ index < typeSymbols.length,
    position (.ttypeEntry index) = position .ttype + 4 * (typeSymbols.length - 1 - index)

/-- The directives after the table's part about its types. -/
def bodyDirectives (offset : ℤ → ℤ → LSDADirective) (typeSymbols : List (Option String))
    (sites : CallSites) (offsets : List Nat) : List LSDADirective :=
  [.byte dwEhPeUleb128, .uleb128Labels .csEnd .csStart, .label .csStart] ++
    ((sites.groups.zip offsets).flatMap (fun group =>
      callSiteDirectives offset group.1.key group.2) ++
    ([.label .csEnd] ++ (actionDirectives sites.groups sites.actions ++
    (if typeSymbols.length > 0 then
      [.label .ttype] ++ (typeDirectives typeSymbols ++ [.label .ttypeEnd])
    else []))))

/-- The groups with their actions in their order. -/
def orderedSites (groups : List LSDACallSiteGroup) (actions : List ℤ) : CallSites :=
  ⟨groups, groups.flatMap (·.actionsIn actions)⟩

/-- The directives of the body assemble to its cells. -/
theorem assemble_body {offset : ℤ → ℤ → LSDADirective} {value : ℤ → ℤ → BitVec 64}
    (writes : Writes offsetOf offset value) {typeSymbols : List (Option String)}
    {groups : List LSDACallSiteGroup} {actions : List ℤ} {start : Nat} {cells : List LSDACell}
    (small : (bodyCells typeSymbols (groups.map (·.row value actions))).length < 2 ^ 63) :
    assembleFrom offsetOf rejectsNegative position start
        (bodyDirectives offset typeSymbols (orderedSites groups actions)
          (chainOffsets 0 (groups.map (·.row value actions)))) = some cells ↔
      BodyPlaced position typeSymbols (groups.map (·.row value actions)) start ∧
        (∀ group ∈ groups, group.key.Accepted rejectsNegative value) ∧
        cells = bodyCells typeSymbols (groups.map (·.row value actions)) := by
  generalize shape : groups.map (·.row value actions) = rows at small ⊢
  have sizes : (bodyCells typeSymbols rows).length =
      1 + (uleb128 10 (sitesCells 0 rows).length).length + (sitesCells 0 rows).length +
        (chainsCells rows).length + 4 * typeSymbols.length := by
    simp only [bodyCells, List.length_cons, List.length_append, length_bytesOf,
      length_typeTableCells]
    omega
  have sites (start : Nat) (cells : List LSDACell) := @assemble_sites offsetOf rejectsNegative
    position offset value writes groups actions 0 start cells
  have actionCells (start : Nat) := @assemble_actions offsetOf rejectsNegative position value
    groups actions start
  rw [shape] at sites actionCells
  constructor
  · intro assembled
    obtain ⟨_, _, header, afterHeader, rfl⟩ := assembleFrom_append_eq_some.mp assembled
    obtain ⟨_, _, siteCells, afterSites, rfl⟩ := assembleFrom_append_eq_some.mp afterHeader
    obtain ⟨_, _, ending, afterEnding, rfl⟩ := assembleFrom_append_eq_some.mp afterSites
    obtain ⟨_, _, chains, types, rfl⟩ := assembleFrom_append_eq_some.mp afterEnding
    obtain ⟨size, operand, csStart, rfl⟩ := assemble_sized.mp header
    obtain ⟨accepted, rfl⟩ := (sites _ _).mp siteCells
    obtain ⟨csEnd, rfl⟩ := assemble_label.mp ending
    cases (actionCells _).symm.trans chains
    have ends : position .csEnd = position .csStart + (sitesCells 0 rows).length := by
      rw [csEnd, csStart, List.length_cons]
      omega
    rw [ends, unsignedOperand_between (by omega)] at operand
    cases operand
    rw [length_bytesOf] at csStart
    simp only [List.length_cons, length_bytesOf, List.length_nil] at types
    by_cases many : typeSymbols.length > 0
    · rw [if_pos many] at types
      obtain ⟨_, _, first, afterFirst, rfl⟩ := assembleFrom_append_eq_some.mp types
      obtain ⟨_, _, table, last, rfl⟩ := assembleFrom_append_eq_some.mp afterFirst
      obtain ⟨ttype, rfl⟩ := assemble_label.mp first
      obtain ⟨entries, rfl⟩ := assemble_types.mp table
      obtain ⟨ttypeEnd, rfl⟩ := assemble_label.mp last
      rw [length_typeTableCells, List.length_nil] at ttypeEnd
      refine ⟨⟨csStart, ends, fun _ => ?_, fun _ => ?_, fun _ index inside => ?_⟩, accepted, ?_⟩
      · omega
      · omega
      · rw [entries index inside, ttype]
        rfl
      · simp [bodyCells]
    · rw [if_neg many] at types
      cases types
      refine ⟨⟨csStart, ends, fun some => absurd some many, fun some => absurd some many,
        fun some => absurd some many⟩, accepted, ?_⟩
      rw [bodyCells, List.length_eq_zero_iff.mp (Nat.eq_zero_of_not_pos many)]
      simp [typeTableCells]
  · rintro ⟨placed, accepted, rfl⟩
    have csStart := placed.csStart
    have csEnd := placed.csEnd
    have operand : unsignedOperand rejectsNegative
        (BitVec.ofNat 64 (position .csEnd) - BitVec.ofNat 64 (position .csStart)) =
          some (bytesOf (uleb128 10 (sitesCells 0 rows).length)) := by
      rw [csEnd]
      exact unsignedOperand_between (by omega)
    refine assembleFrom_append_eq_some.mpr ⟨.byte dwEhPeUleb128 ::
      bytesOf (uleb128 10 (sitesCells 0 rows).length), sitesCells 0 rows ++ (chainsCells rows ++
        typeTableCells typeSymbols), assemble_sized.mpr ⟨_, operand, ?_, rfl⟩, ?_, rfl⟩
    · rw [csStart, length_bytesOf]
    refine assembleFrom_append_eq_some.mpr ⟨sitesCells 0 rows, chainsCells rows ++
      typeTableCells typeSymbols, (sites _ _).mpr ⟨accepted, rfl⟩, ?_, rfl⟩
    refine assembleFrom_append_eq_some.mpr ⟨[], chainsCells rows ++ typeTableCells typeSymbols,
      assemble_label.mpr ⟨?_, rfl⟩, ?_, rfl⟩
    · rw [csEnd, csStart, List.length_cons, length_bytesOf]
      omega
    refine assembleFrom_append_eq_some.mpr ⟨chainsCells rows, typeTableCells typeSymbols,
      actionCells _, ?_, rfl⟩
    simp only [List.length_cons, length_bytesOf, List.length_nil]
    by_cases many : typeSymbols.length > 0
    · have ttype := placed.ttype many
      have ttypeEnd := placed.ttypeEnd many
      rw [if_pos many]
      refine assembleFrom_append_eq_some.mpr ⟨[], typeTableCells typeSymbols,
        assemble_label.mpr ⟨by omega, rfl⟩, ?_, rfl⟩
      refine assembleFrom_append_eq_some.mpr ⟨typeTableCells typeSymbols, [],
        assemble_types.mpr ⟨?_, rfl⟩, assemble_label.mpr ⟨?_, rfl⟩, (List.append_nil _).symm⟩
      · intro index inside
        rw [placed.ttypeEntry many index inside, List.length_nil]
        omega
      · rw [length_typeTableCells, List.length_nil]
        omega
    · rw [if_neg many, List.length_eq_zero_iff.mp (Nat.eq_zero_of_not_pos many)]
      rfl

/-- The size of the part of a header about the types. -/
def typeHeaderSize (typeSymbols : List (Option String)) (rows : List LSDARow) : Nat :=
  if typeSymbols.length > 0 then 1 + (uleb128 10 (bodyCells typeSymbols rows).length).length else 1

/-- The positions of all labels of a table. -/
structure TablePlaced (position : LSDALabel → Nat) (typeSymbols : List (Option String))
    (rows : List LSDARow) (start : Nat) : Prop where
  lsda : position .lsda = start + (padding start).length
  ttypeBase : typeSymbols.length > 0 →
    position .ttypeBase = position .lsda + 1 + typeHeaderSize typeSymbols rows
  body : BodyPlaced position typeSymbols rows (position .lsda + 1 + typeHeaderSize typeSymbols rows)

/-- The cells of a table with the padding before and after it. -/
def paddedTable (typeSymbols : List (Option String)) (rows : List LSDARow) (start : Nat) :
    List LSDACell :=
  padding start ++ (tableCells typeSymbols rows ++
    padding (start + (padding start).length + (tableCells typeSymbols rows).length))

theorem assemble_align :
    assembleFrom offsetOf rejectsNegative position start [.align 4] = some cells ↔
      cells = padding start := by
  rw [assembleFrom_singleton, LSDADirective.assemble, Option.some.injEq, eq_comm]
  rfl

/-- The directives of a table assemble to its cells, where the labels are in their places. -/
theorem assemble_table {offset : ℤ → ℤ → LSDADirective} {value : ℤ → ℤ → BitVec 64}
    (writes : Writes offsetOf offset value) {groups : List LSDACallSiteGroup} {actions : List ℤ}
    (small : (bodyCells typeSymbols (groups.map (·.row value actions))).length < 2 ^ 63) :
    assembleFrom offsetOf rejectsNegative position start
        (tableDirectives offset typeSymbols (orderedSites groups actions)
          (chainOffsets 0 (groups.map (·.row value actions)))) = some cells ↔
      TablePlaced position typeSymbols (groups.map (·.row value actions)) start ∧
        (∀ group ∈ groups, group.key.Accepted rejectsNegative value) ∧
        cells = paddedTable typeSymbols (groups.map (·.row value actions)) start := by
  have body (start : Nat) (cells : List LSDACell) := @assemble_body offsetOf rejectsNegative
    position offset value writes typeSymbols groups actions start cells small
  have parts (offsets : List Nat) :
      tableDirectives offset typeSymbols (orderedSites groups actions) offsets =
        [.align 4] ++ ([.label .lsda] ++ ([.byte dwEhPeOmit] ++
          ((if typeSymbols.length > 0 then
              [.byte dwEhPePcrelSdata4, .uleb128Labels .ttypeEnd .ttypeBase, .label .ttypeBase]
            else [.byte dwEhPeOmit]) ++
            (bodyDirectives offset typeSymbols (orderedSites groups actions) offsets ++
              [.align 4])))) := by
    rw [tableDirectives, bodyDirectives]
    simp
  generalize groups.map (·.row value actions) = rows at small body ⊢
  have omitted (start : Nat) : assembleFrom offsetOf rejectsNegative position start
      [.byte dwEhPeOmit] = some [.byte dwEhPeOmit] := rfl
  have bodySize : 1 + typeHeaderSize typeSymbols rows + (bodyCells typeSymbols rows).length =
      (tableCells typeSymbols rows).length := by
    rw [tableCells, typeHeaderSize, List.length_cons, List.length_append]
    split
    · rw [List.length_cons, length_bytesOf]
      omega
    · rw [List.length_singleton]
      omega
  rw [parts]
  constructor
  · intro assembled
    obtain ⟨_, _, before, afterBefore, rfl⟩ := assembleFrom_append_eq_some.mp assembled
    obtain ⟨_, _, label, afterLabel, rfl⟩ := assembleFrom_append_eq_some.mp afterBefore
    obtain ⟨_, _, lpStart, afterStart, rfl⟩ := assembleFrom_append_eq_some.mp afterLabel
    obtain ⟨_, _, header, afterHeader, rfl⟩ := assembleFrom_append_eq_some.mp afterStart
    obtain ⟨_, _, bodyPart, last, rfl⟩ := assembleFrom_append_eq_some.mp afterHeader
    obtain rfl := assemble_align.mp before
    obtain ⟨lsda, rfl⟩ := assemble_label.mp label
    cases (omitted _).symm.trans lpStart
    obtain ⟨placed, accepted, rfl⟩ := (body _ _).mp bodyPart
    obtain rfl := assemble_align.mp last
    by_cases many : typeSymbols.length > 0
    · rw [if_pos many] at header
      obtain ⟨size, operand, ttypeBase, rfl⟩ := assemble_sized.mp header
      have ttypeEnd := placed.ttypeEnd many
      simp only [List.length_nil, List.length_cons, Nat.add_zero] at lsda ttypeBase ttypeEnd placed
      have ends : position .ttypeEnd =
          position .ttypeBase + (bodyCells typeSymbols rows).length := by
        omega
      rw [ends, unsignedOperand_between small] at operand
      cases operand
      have headerSize : typeHeaderSize typeSymbols rows =
          1 + (uleb128 10 (bodyCells typeSymbols rows).length).length := if_pos many
      rw [length_bytesOf] at ttypeBase placed
      refine ⟨⟨lsda, fun _ => ?_, ?_⟩, accepted, ?_⟩
      · rw [ttypeBase, lsda, headerSize]
        omega
      · rw [lsda, headerSize, Nat.add_comm 1]
        exact placed
      · rw [paddedTable, ← bodySize, tableCells, if_pos many, headerSize]
        simp only [List.nil_append, List.cons_append, List.append_assoc, List.length_nil,
          List.length_cons, length_bytesOf, Nat.add_zero]
        congr 6
        omega
    · rw [if_neg many] at header
      cases (omitted _).symm.trans header
      have headerSize : typeHeaderSize typeSymbols rows = 1 := if_neg many
      refine ⟨⟨lsda, fun some => absurd some many, ?_⟩, accepted, ?_⟩
      · rw [lsda, headerSize]
        exact placed
      · rw [paddedTable, ← bodySize, tableCells, if_neg many, headerSize]
        simp only [List.nil_append, List.cons_append, List.length_nil, List.length_cons,
          Nat.add_zero]
        congr 5
        omega
  · rintro ⟨placed, accepted, rfl⟩
    have lsda := placed.lsda
    have ends (many : typeSymbols.length > 0) : position .ttypeEnd =
        position .ttypeBase + (bodyCells typeSymbols rows).length := by
      rw [placed.body.ttypeEnd many, placed.ttypeBase many]
    let headerCells : List LSDACell :=
      if typeSymbols.length > 0 then
        .byte dwEhPePcrelSdata4 :: bytesOf (uleb128 10 (bodyCells typeSymbols rows).length)
      else [.byte dwEhPeOmit]
    have headerSize : headerCells.length = typeHeaderSize typeSymbols rows := by
      simp only [headerCells, typeHeaderSize]
      split
      · rw [List.length_cons, length_bytesOf, Nat.add_comm]
      · rfl
    have place : start + (padding start).length + 1 + headerCells.length =
        position .lsda + 1 + typeHeaderSize typeSymbols rows := by
      rw [lsda, headerSize]
    let last := padding (start + (padding start).length + (tableCells typeSymbols rows).length)
    refine assembleFrom_append_eq_some.mpr ⟨padding start, _, assemble_align.mpr rfl, ?_, rfl⟩
    refine assembleFrom_append_eq_some.mpr ⟨[], _, assemble_label.mpr ⟨lsda, rfl⟩, ?_, rfl⟩
    refine assembleFrom_append_eq_some.mpr ⟨[.byte dwEhPeOmit],
      headerCells ++ (bodyCells typeSymbols rows ++ last), omitted _, ?_, ?_⟩
    · refine assembleFrom_append_eq_some.mpr ⟨headerCells, bodyCells typeSymbols rows ++ last,
        ?_, ?_, rfl⟩
      · simp only [headerCells]
        split
        · next many =>
            refine assemble_sized.mpr ⟨bytesOf (uleb128 10 (bodyCells typeSymbols rows).length),
              ?_, ?_, rfl⟩
            · rw [ends many]
              exact unsignedOperand_between small
            · rw [placed.ttypeBase many, lsda, typeHeaderSize, if_pos many, length_bytesOf]
              simp only [List.length_nil, List.length_singleton]
              omega
        · exact omitted _
      · refine assembleFrom_append_eq_some.mpr ⟨bodyCells typeSymbols rows, last,
          (body _ _).mpr ⟨?_, accepted, rfl⟩, assemble_align.mpr ?_, rfl⟩
        · simp only [List.length_nil, List.length_singleton, Nat.add_zero, place]
          exact placed.body
        · simp only [last, ← bodySize, List.length_nil, List.length_singleton, Nat.add_zero,
            headerSize]
          congr 1
          omega
    · show (LSDACell.byte dwEhPeOmit :: (headerCells ++ bodyCells typeSymbols rows)) ++ last = _
      rw [List.cons_append, List.append_assoc]
      rfl

end Assembling

theorem exists_tablePlaced (typeSymbols : List (Option String)) (rows : List LSDARow)
    (start : Nat) : ∃ position, TablePlaced position typeSymbols rows start := by
  let table := start + (padding start).length
  let body := table + 1 + typeHeaderSize typeSymbols rows
  let csStart := body + 1 + (uleb128 10 (sitesCells 0 rows).length).length
  let csEnd := csStart + (sitesCells 0 rows).length
  let ttype := csEnd + (chainsCells rows).length
  let position : LSDALabel → Nat :=
    @LSDALabel.rec (fun _ => Nat) table body (body + (bodyCells typeSymbols rows).length) csStart csEnd
      ttype fun index => ttype + 4 * (typeSymbols.length - 1 - index)
  exact ⟨position, rfl, fun _ => rfl, rfl, rfl, fun _ => rfl, fun _ => rfl, fun _ _ _ => rfl⟩

/-- The cells from the label of a table on. -/
theorem drop_paddedTable (typeSymbols : List (Option String)) (rows : List LSDARow) (start : Nat) :
    (paddedTable typeSymbols rows start).drop (padding start).length =
      tableCells typeSymbols rows ++
        padding (start + (padding start).length + (tableCells typeSymbols rows).length) :=
  List.drop_left

end DaveCC.Backend
