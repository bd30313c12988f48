import DaveCC.Arith.LittleEndian
import DaveCC.Container.ExchangeSort

/-!
# Exception tables

The table of call sites, actions and types that `DaveEHPrintExceptTable` prints as directives
and `DaveEHEmitGCCExceptTable` adds to an assembler module, from the ranges of a function.
-/

namespace DaveCC.Backend

open DaveCC.Arith DaveCC.Container

/-- `DaveEHLSDARange`. A range without type information catches everything. -/
structure DaveEHLSDARange where
  tryStartId : ℤ
  tryEndId : ℤ
  landingPadId : ℤ
  catchTypeinfo : Option String
  isCleanup : Bool
  deriving DecidableEq, Repr

/-- What ranges of one call site share. -/
structure CallSiteKey where
  tryStartId : ℤ
  tryEndId : ℤ
  landingPadId : ℤ
  deriving DecidableEq, Repr

def DaveEHLSDARange.key (range : DaveEHLSDARange) : CallSiteKey :=
  ⟨range.tryStartId, range.tryEndId, range.landingPadId⟩

/-- The capacities of the arrays on the stack. -/
def typeCapacity : Nat := 64

def groupCapacity : Nat := 64

def actionCapacity : Nat := 128

def findTypeIndex (typeSymbols : List (Option String)) (symbol : Option String) : Nat :=
  match typeSymbols.findIdx? (· == symbol) with
  | some index => index + 1
  | none => 0

/-- `RangeTypeFilter`. -/
def DaveEHLSDARange.typeFilter (range : DaveEHLSDARange) (typeSymbols : List (Option String)) : ℤ :=
  if range.isCleanup then 0 else findTypeIndex typeSymbols range.catchTypeinfo

/-- The types with `has_catch_all`. -/
structure CollectedTypes where
  typeSymbols : List (Option String)
  hasCatchAll : Bool

/-- One range of the first loop of `DaveEHPrintExceptTable`. -/
def CollectedTypes.print (types : CollectedTypes) (range : DaveEHLSDARange) : CollectedTypes :=
  if range.isCleanup then types
  else if range.catchTypeinfo = none then { types with hasCatchAll := true }
  else if findTypeIndex types.typeSymbols range.catchTypeinfo ≠ 0 then types
  else if types.typeSymbols.length ≥ typeCapacity then types
  else { types with typeSymbols := types.typeSymbols ++ [range.catchTypeinfo] }

/-- One range of the first loop of `DaveEHEmitGCCExceptTable`. -/
def CollectedTypes.emit (types : CollectedTypes) (range : DaveEHLSDARange) : CollectedTypes :=
  if range.isCleanup then types
  else if range.catchTypeinfo = none then { types with hasCatchAll := true }
  else if findTypeIndex types.typeSymbols range.catchTypeinfo = 0 ∧
      types.typeSymbols.length < typeCapacity then
    { types with typeSymbols := types.typeSymbols ++ [range.catchTypeinfo] }
  else types

/-- The catch-all comes after all other types. -/
def CollectedTypes.withCatchAll (types : CollectedTypes) : List (Option String) :=
  if types.hasCatchAll = true ∧ types.typeSymbols.length < typeCapacity then
    types.typeSymbols ++ [none]
  else types.typeSymbols

def printedTypes (ranges : List DaveEHLSDARange) : List (Option String) :=
  (ranges.foldl CollectedTypes.print ⟨[], false⟩).withCatchAll

def emittedTypes (ranges : List DaveEHLSDARange) : List (Option String) :=
  (ranges.foldl CollectedTypes.emit ⟨[], false⟩).withCatchAll

structure LSDACallSiteGroup where
  key : CallSiteKey
  firstAction : Nat
  actionCount : Nat
  deriving DecidableEq, Repr

/-- The groups and the filters of the actions. -/
structure CallSites where
  groups : List LSDACallSiteGroup
  actions : List ℤ
  deriving DecidableEq, Repr

/-- One more action for a group. -/
def CallSites.addAction (sites : CallSites) (group : Nat) (filter : ℤ) : CallSites :=
  if sites.actions.length ≥ actionCapacity then sites
  else
    { groups := sites.groups.modify group fun found =>
        { found with actionCount := found.actionCount + 1 }
      actions := sites.actions ++ [filter] }

/-- One range of the loop that collects the groups. -/
def CallSites.add (typeSymbols : List (Option String)) (sites : CallSites)
    (range : DaveEHLSDARange) : CallSites :=
  let filter := range.typeFilter typeSymbols
  match sites.groups.findIdx? (·.key == range.key) with
  | some group => sites.addAction group filter
  | none =>
    if sites.groups.length ≥ groupCapacity ∨ sites.actions.length ≥ actionCapacity then sites
    else
      let group : LSDACallSiteGroup :=
        { key := range.key, firstAction := sites.actions.length, actionCount := 0 }
      CallSites.addAction { sites with groups := sites.groups ++ [group] } sites.groups.length
        filter

/-- `CallSiteGroupLess`, where it is negative. -/
def callSiteGroupLess (first second : LSDACallSiteGroup) : Bool :=
  if first.key.tryStartId ≠ second.key.tryStartId then
    first.key.tryStartId < second.key.tryStartId
  else if first.key.tryEndId ≠ second.key.tryEndId then
    first.key.tryEndId < second.key.tryEndId
  else first.key.landingPadId < second.key.landingPadId

/-- The actions of a group in the array; what is behind the array is not known. -/
def LSDACallSiteGroup.actionsIn (group : LSDACallSiteGroup) (actions : List ℤ) : List ℤ :=
  (List.range group.actionCount).map fun index => actions.getD (group.firstAction + index) 0

/-- The sorted groups with the actions in their order. -/
def CallSites.sort (sites : CallSites) : CallSites :=
  let groups := exchangeSort callSiteGroupLess sites.groups
  { groups := groups, actions := groups.flatMap (·.actionsIn sites.actions) }

/-- `Sleb128Size`, with at most so many rounds. -/
def sleb128Size : Nat → ℤ → Nat
  | 0, _ => 0
  | rounds + 1, value => if isLastByte value then 1 else sleb128Size rounds (value / 128) + 1

/-- The bytes of an action record. -/
def recordSize (filter : ℤ) : Nat :=
  sleb128Size 10 filter + 1

/-- The byte offsets that are assigned to the groups, with the running counters. -/
structure RunningOffset where
  offsets : List Nat
  byteOffset : Nat
  actionIndex : Nat

/-- One group of the loop for the byte offsets in `DaveEHPrintExceptTable`: the index of an
action is counted anew from the groups before its own. -/
def RunningOffset.print (sites : CallSites) (running : RunningOffset)
    (group : LSDACallSiteGroup × Nat) : RunningOffset :=
  let before := ((sites.groups.take group.2).map (·.actionCount)).sum
  { running with
    offsets := running.offsets ++ [running.byteOffset]
    byteOffset := running.byteOffset +
      ((List.range group.1.actionCount).map fun index =>
        recordSize (sites.actions.getD (before + index) 0)).sum }

/-- One group of the loop for the byte offsets in `DaveEHEmitGCCExceptTable`. -/
def RunningOffset.emit (sites : CallSites) (running : RunningOffset)
    (group : LSDACallSiteGroup) : RunningOffset :=
  { offsets := running.offsets ++ [running.byteOffset]
    byteOffset := running.byteOffset +
      ((List.range group.actionCount).map fun index =>
        recordSize (sites.actions.getD (running.actionIndex + index) 0)).sum
    actionIndex := running.actionIndex + group.actionCount }

def printedOffsets (sites : CallSites) : List Nat :=
  (sites.groups.zipIdx.foldl (RunningOffset.print sites) ⟨[], 0, 0⟩).offsets

def emittedOffsets (sites : CallSites) : List Nat :=
  (sites.groups.foldl (RunningOffset.emit sites) ⟨[], 0, 0⟩).offsets

/-! ## Directives -/

/-- The labels of a table. -/
inductive LSDALabel where
  | lsda
  | ttypeBase
  | ttypeEnd
  | csStart
  | csEnd
  | ttype
  | ttypeEntry (index : Nat)
  deriving DecidableEq, Repr

inductive CodeLabel where
  | function
  | insn (id : ℤ)
  deriving DecidableEq, Repr

/-- A directive, or the operation of a module that stands for it. -/
inductive LSDADirective where
  | align (alignment : Nat)
  | label (label : LSDALabel)
  | byte (value : BitVec 8)
  | uleb128 (value : Nat)
  | sleb128 (value : ℤ)
  | uleb128Labels (left right : LSDALabel)
  | uleb128Code (left right : CodeLabel)
  | word (value : Nat)
  | wordSymbol (symbol : String) (right : LSDALabel)
  deriving DecidableEq, Repr

def dwEhPeOmit : BitVec 8 := 0xff

def dwEhPeUleb128 : BitVec 8 := 0x01

def dwEhPePcrelSdata4 : BitVec 8 := 0x1b

def printOffsetFromFunc (fromId toId : ℤ) : LSDADirective :=
  if fromId = toId then .uleb128 0
  else .uleb128Code (.insn toId) (if fromId = 0 then .function else .insn fromId)

/-- A difference of `OffsetLabels`. -/
def offsetLabels (fromId toId : ℤ) : LSDADirective :=
  .uleb128Code (.insn toId) (if fromId = 0 then .function else .insn fromId)

/-- The call site of a group, with one of the ways to name its labels. -/
def callSiteDirectives (offset : ℤ → ℤ → LSDADirective) (key : CallSiteKey) (firstAction : Nat) :
    List LSDADirective :=
  [offset 0 key.tryStartId, offset key.tryStartId key.tryEndId, offset 0 key.landingPadId,
    .uleb128 (firstAction + 1)]

/-- The action records of groups that follow one another in the array. -/
def actionDirectives : List LSDACallSiteGroup → List ℤ → List LSDADirective
  | [], _ => []
  | group :: groups, actions =>
    ((List.range group.actionCount).flatMap fun index =>
      [.sleb128 (actions.getD index 0),
        .sleb128 (if index + 1 < group.actionCount then 1 else 0)]) ++
      actionDirectives groups (actions.drop group.actionCount)

/-- An entry of the type table: a pointer that is relative to the entry, or a null pointer. -/
def typeEntryDirectives (index : Nat) : Option String → List LSDADirective
  | none => [.label (.ttypeEntry index), .word 0]
  | some symbol => [.label (.ttypeEntry index), .wordSymbol symbol (.ttypeEntry index)]

/-- The type table, the last type first. -/
def typeDirectives (typeSymbols : List (Option String)) : List LSDADirective :=
  (typeSymbols.zipIdx.reverse).flatMap fun entry => typeEntryDirectives entry.2 entry.1

/-- The directives of a table between the switches of the section. -/
def tableDirectives (offset : ℤ → ℤ → LSDADirective) (typeSymbols : List (Option String))
    (sites : CallSites) (offsets : List Nat) : List LSDADirective :=
  [.align 4, .label .lsda, .byte dwEhPeOmit] ++
    (if typeSymbols.length > 0 then
      [.byte dwEhPePcrelSdata4, .uleb128Labels .ttypeEnd .ttypeBase, .label .ttypeBase]
    else [.byte dwEhPeOmit]) ++
    [.byte dwEhPeUleb128, .uleb128Labels .csEnd .csStart, .label .csStart] ++
    (sites.groups.zip offsets).flatMap (fun group =>
      callSiteDirectives offset group.1.key group.2) ++
    [.label .csEnd] ++
    actionDirectives sites.groups sites.actions ++
    (if typeSymbols.length > 0 then
      [.label .ttype] ++ typeDirectives typeSymbols ++ [.label .ttypeEnd]
    else []) ++
    [.align 4]

def daveEHPrintExceptTable (ranges : List DaveEHLSDARange) : List LSDADirective :=
  if ranges.length = 0 then []
  else
    let typeSymbols := printedTypes ranges
    let sites := (ranges.foldl (CallSites.add typeSymbols) ⟨[], []⟩).sort
    tableDirectives printOffsetFromFunc typeSymbols sites (printedOffsets sites)

def daveEHEmitGCCExceptTable (ranges : List DaveEHLSDARange) : List LSDADirective :=
  if ranges.length = 0 then []
  else
    let typeSymbols := emittedTypes ranges
    let sites := (ranges.foldl (CallSites.add typeSymbols) ⟨[], []⟩).sort
    tableDirectives offsetLabels typeSymbols sites (emittedOffsets sites)

end DaveCC.Backend

/-!
## Assembling and decoding exception tables

What the assembler makes of the directives of a table, and what a personality routine reads
from it by the rules of the Itanium ABI. A field that is relocated against a symbol stays a
reference to the symbol.
-/

namespace DaveCC.Backend

open DaveCC.Arith

/-- A byte of a section: one that is known, or one of a field that becomes the difference of a
symbol and the field's own address. -/
inductive LSDACell where
  | byte (value : BitVec 8)
  | symbol (name : String) (addend : ℤ) (index : Nat)
  deriving DecidableEq, Repr

def bytesOf (bytes : List (BitVec 8)) : List LSDACell :=
  bytes.map .byte

/-- The four bytes of a field that is relocated. -/
def symbolField (name : String) (addend : ℤ) : List LSDACell :=
  (List.range 4).map (.symbol name addend)

/-- The value of a code label: its distance from the start of the function. -/
def CodeLabel.value (offsetOf : ℤ → BitVec 64) : CodeLabel → BitVec 64
  | .function => 0
  | .insn id => offsetOf id

/-- An unsigned LEB128 operand, which the directive refuses where it is negative. -/
def unsignedOperand (rejectsNegative : Bool) (value : BitVec 64) : Option (List LSDACell) :=
  if rejectsNegative && value.msb then none else some (bytesOf (uleb128 10 value.toNat))

section Assembling

variable (offsetOf : ℤ → BitVec 64) (rejectsNegative : Bool) (position : LSDALabel → Nat)

/-- What a directive puts at an offset of the section, with the labels in their positions. -/
def LSDADirective.assemble (offset : Nat) : LSDADirective → Option (List LSDACell)
  | .align alignment =>
    some (bytesOf (List.replicate ((alignment - offset % alignment) % alignment) 0))
  | .label placed => if position placed = offset then some [] else none
  | .byte value => some [.byte value]
  | .uleb128 value => some (bytesOf (Arith.uleb128 10 value))
  | .sleb128 value => some (bytesOf (Arith.sleb128 10 value))
  | .uleb128Labels left right =>
    unsignedOperand rejectsNegative
      (BitVec.ofNat 64 (position left) - BitVec.ofNat 64 (position right))
  | .uleb128Code left right =>
    unsignedOperand rejectsNegative (left.value offsetOf - right.value offsetOf)
  | .word value => some (bytesOf (wordBytes 4 value))
  | .wordSymbol symbol right => some (symbolField symbol ((offset : ℤ) - position right))

/-- The cells of directives from an offset on. -/
def assembleFrom (offset : Nat) : List LSDADirective → Option (List LSDACell)
  | [] => some []
  | directive :: directives => do
      let cells ← directive.assemble offsetOf rejectsNegative position offset
      let rest ← assembleFrom (offset + cells.length) directives
      some (cells ++ rest)

end Assembling

/-- What an action does when it is chosen. -/
inductive LSDAAction where
  | cleanup
  /-- Catches a type, or everything. -/
  | catches (typeinfo : Option String)
  deriving DecidableEq, Repr

/-- A call site with its actions in the order of their chain. -/
structure LSDACallSite where
  start : Nat
  length : Nat
  landingPad : Nat
  actions : List LSDAAction
  deriving DecidableEq, Repr

/-- The known bytes that cells start with. -/
def plainBytes : List LSDACell → List (BitVec 8)
  | .byte value :: cells => value :: plainBytes cells
  | _ => []

section Decoding

variable (cells : List LSDACell)

def byteAt (offset : Nat) : Option (BitVec 8) :=
  (plainBytes (cells.drop offset)).head?

/-- An unsigned number and the offset after it. -/
def readUnsigned (offset : Nat) : Option (Nat × Nat) :=
  (readUleb128 (plainBytes (cells.drop offset))).map fun read => (read.1, offset + read.2)

/-- A signed number and the offset after it. -/
def readSigned (offset : Nat) : Option (ℤ × Nat) :=
  (readSleb128 (plainBytes (cells.drop offset))).map fun read => (read.1, offset + read.2)

/-- An entry of the type table: a relative pointer, or zero for every type. -/
def typeAt (offset : Nat) : Option (Option String) :=
  if (cells.drop offset).take 4 = bytesOf (wordBytes 4 0) then some none
  else
    match cells.drop offset with
    | .symbol name _ _ :: _ =>
      if (cells.drop offset).take 4 = symbolField name 0 then some (some name) else none
    | _ => none

/-- The meaning of a filter: zero is a cleanup, a positive one counts entries of four bytes
back from the end of the type table. -/
def filterMeaning (typeEnd : Nat) (filter : ℤ) : Option LSDAAction :=
  if filter = 0 then some .cleanup
  else if 0 < filter then (typeAt cells (typeEnd - 4 * filter.toNat)).map .catches
  else none

/-- A chain of action records. A displacement counts from its own field, and zero ends the
chain. -/
def readActions (typeEnd : Nat) : Nat → Nat → Option (List LSDAAction)
  | 0, _ => none
  | steps + 1, offset => do
      let filter ← readSigned cells offset
      let displacement ← readSigned cells filter.2
      let action ← filterMeaning cells typeEnd filter.1
      if displacement.1 = 0 then some [action]
      else
        let rest ← readActions typeEnd steps (filter.2 + displacement.1).toNat
        some (action :: rest)

/-- The actions of a call site: none, or the chain at an offset counted from one. -/
def readChain (typeEnd actionTable action : Nat) : Option (List LSDAAction) :=
  if action = 0 then some []
  else readActions cells typeEnd cells.length (actionTable + action - 1)

/-- The call sites up to the action table. -/
def readCallSites (typeEnd actionTable : Nat) : Nat → Nat → Option (List LSDACallSite)
  | 0, _ => none
  | steps + 1, offset =>
    if offset < actionTable then do
      let start ← readUnsigned cells offset
      let length ← readUnsigned cells start.2
      let landingPad ← readUnsigned cells length.2
      let action ← readUnsigned cells landingPad.2
      let actions ← readChain cells typeEnd actionTable action.1
      let rest ← readCallSites typeEnd actionTable steps action.2
      some (⟨start.1, length.1, landingPad.1, actions⟩ :: rest)
    else some []

/-- The end of the type table, and the offset after its part of the header. -/
def readTypeEnd : Option (Nat × Nat) := do
  let encoding ← byteAt cells 1
  if encoding = dwEhPeOmit then some (0, 2)
  else if encoding = dwEhPePcrelSdata4 then
    let size ← readUnsigned cells 2
    some (size.2 + size.1, size.2)
  else none

/-- The call sites of a table whose landing pads count from the function. A function without a
table has none. -/
def decodeLSDA : Option (List LSDACallSite) :=
  if cells = [] then some []
  else do
    let start ← byteAt cells 0
    if start ≠ dwEhPeOmit then none
    else
      let types ← readTypeEnd cells
      let encoding ← byteAt cells types.2
      if encoding ≠ dwEhPeUleb128 then none
      else
        let size ← readUnsigned cells (types.2 + 1)
        readCallSites cells types.1 (size.2 + size.1) cells.length size.2

end Decoding

end DaveCC.Backend
