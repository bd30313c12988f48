import DaveCC.Optimization.AliasAnalysis

/-!
# Soundness of alias analysis

The answers about two locations hold of the bytes that the instructions touch, as long as
the size in a location is the number of bytes its instruction accesses. An effect that is
not decoded spares the hidden variables. What the analysis misses are the outputs of an
`asm` statement without a memory clobber.
-/

namespace DaveCC.Optimization

open DaveCC.Backend DaveCC.Memory DaveCC.Optimization.AliasAnalysis

/-- What an instruction must be for the analysis to be right about it. -/
structure Analyzable (fn : MemoryFunction) (id : NodeId) : Prop where
  /-- It accesses as many bytes as its location has, if that is known. -/
  width : ∀ fuel location, irAliasDecode fn.gen fuel id = some (some location) →
    ∃ width, fn.accessWidth id = some width ∧ (location.size = 0 ∨ location.size = width)
  /-- An `asm` statement without a memory clobber has no outputs. -/
  outputs : (fn.gen.nodes id).opcode = .asm → (fn.gen.nodes id).asmClobbersMemory = false →
    fn.asmOutputs id = []
  /-- Offsets from a variable that is not marked are constants, with a sum that fits. -/
  offsets : ∀ base symbol, (fn.gen.nodes id).inputs.head? = some base →
    (fn.gen.nodes base).variableSymbol = some symbol → symbol.addressTaken = false →
      ∃ offset, addOffsets fn.gen (fn.gen.nodes id) 0 = some offset

variable {Object : Type} {fn : MemoryFunction} {place : Nat → Object} {id other : NodeId}
  {state before after : MachineState Object} {fuel : Nat} {location effect : MemoryLocation}

/-- The bytes that an instruction with the location accesses. -/
def locationBytes (fn : MemoryFunction) (place : Nat → Object) (id : NodeId)
    (location : MemoryLocation) : Set (Location Object) :=
  {byte | ∃ base width, location.base = some base ∧ fn.accessWidth id = some width ∧
    byte ∈ bytesAt (place base.id) (BitVec.ofInt 64 location.offset) width}

theorem touched_of_accessWidth {width : Nat} (hasWidth : fn.accessWidth id = some width) :
    fn.touched place state id = fn.bytesAccessed place state id := by
  unfold MemoryFunction.accessWidth at hasWidth
  unfold MemoryFunction.touched
  dsimp only at hasWidth
  split at hasWidth
  all_goals first
    | next isOpcode => rw [isOpcode]; rfl
    | next =>
      split_ifs at hasWidth with modifies
      rw [modifies]

/-- An instruction touches the bytes of its location, and no others. -/
theorem touched_subset (addresses : Addresses fn place state) (analyzable : Analyzable fn id)
    (decoded : irAliasDecode fn.gen fuel id = some (some location)) :
    fn.touched place state id ⊆ locationBytes fn place id location := by
  rcases analyzable.width fuel location decoded with ⟨width, hasWidth, _⟩
  rw [touched_of_accessWidth hasWidth]
  rintro byte ⟨object, word, accessed, performs, isWidth, inside⟩
  rcases addresses.address_eq decoded performs with ⟨base, isBase, isPlace, isOffset⟩
  rw [isPlace, isOffset] at inside
  exact ⟨base, accessed, isBase, isWidth, inside⟩

theorem touched_eq (addresses : Addresses fn place state) (analyzable : Analyzable fn id)
    (decoded : irAliasDecode fn.gen fuel id = some (some location))
    (performs : (fn.address place state id).isSome = true) :
    fn.touched place state id = locationBytes fn place id location := by
  apply Set.Subset.antisymm (touched_subset addresses analyzable decoded)
  rcases analyzable.width fuel location decoded with ⟨width, hasWidth, _⟩
  rw [touched_of_accessWidth hasWidth]
  rintro byte ⟨base, accessed, isBase, isWidth, inside⟩
  rcases Option.isSome_iff_exists.mp performs with ⟨⟨object, word⟩, performs⟩
  rcases addresses.address_eq decoded performs with ⟨found, isFound, isPlace, isOffset⟩
  cases Option.some.inj (isFound.symm.trans isBase)
  rw [← isPlace, ← isOffset] at inside
  exact ⟨object, word, accessed, performs, isWidth, inside⟩

variable {first second : NodeId} {lhs rhs : MemoryLocation} {otherFuel : Nat}

/-- Locations that do not alias have no byte in common. -/
theorem disjoint_of_noAlias (distinct : DistinctObjects fn place) {fuel : Nat}
    (isFirst : irAliasDecode fn.gen fuel first = some (some lhs))
    (isSecond : irAliasDecode fn.gen otherFuel second = some (some rhs))
    (firstAnalyzable : Analyzable fn first) (secondAnalyzable : Analyzable fn second)
    (noAlias : irAliasClassify lhs rhs = .noAlias) :
    Disjoint (locationBytes fn place first lhs) (locationBytes fn place second rhs) := by
  rcases firstAnalyzable.width _ _ isFirst with ⟨length, hasLength, lengthSize⟩
  rcases secondAnalyzable.width _ _ isSecond with ⟨size, hasSize, sizeSize⟩
  rcases exists_of_irAliasDecode isFirst with ⟨_, left, _, _, isLeft, leftDecodes, _⟩
  rcases exists_of_irAliasDecode isSecond with ⟨_, right, _, _, isRight, rightDecodes, _⟩
  have leftWord := isWord_of_irAliasDecode isFirst
  have rightWord := isWord_of_irAliasDecode isSecond
  have apart : Disjoint (bytesAt (place left.id) (BitVec.ofInt 64 lhs.offset) length)
      (bytesAt (place right.id) (BitVec.ofInt 64 rhs.offset) size) := by
    unfold irAliasClassify at noAlias
    rw [isLeft, isRight] at noAlias
    dsimp only at noAlias
    split_ifs at noAlias with differ unknown same
    · apply bytesAt_disjoint_of_ne
      intro samePlace
      rcases leftDecodes.exists_variable with ⟨var, isVar, _⟩
      rcases rightDecodes.exists_variable with ⟨otherVar, isOtherVar, _⟩
      exact differ (distinct var otherVar left right isVar isOtherVar samePlace)
    · simp only [not_or] at unknown
      have lengthEq : lhs.size = length := lengthSize.resolve_left unknown.2.2.1
      have sizeEq : rhs.size = size := sizeSize.resolve_left unknown.2.2.2
      rw [lengthEq, sizeEq] at noAlias
      split at noAlias
      next lhsEnd rhsEnd isLhsEnd isRhsEnd =>
          unfold IsWord kInt64Min kInt64Max at leftWord rightWord
          unfold int64Add kInt64Min kInt64Max at isLhsEnd isRhsEnd
          split_ifs at isLhsEnd isRhsEnd noAlias with _ _ follows
          cases isLhsEnd
          cases isRhsEnd
          cases follows with
          | inl before => exact bytesAt_disjoint_of_le before (by omega) (by omega)
          | inr behind => exact (bytesAt_disjoint_of_le behind (by omega) (by omega)).symm
      next => cases noAlias
  apply Set.disjoint_of_subset _ _ apart
  · rintro byte ⟨base, width, isBase, isWidth, inside⟩
    cases Option.some.inj (isLeft.symm.trans isBase)
    cases Option.some.inj (hasLength.symm.trans isWidth)
    exact inside
  · rintro byte ⟨base, width, isBase, isWidth, inside⟩
    cases Option.some.inj (isRight.symm.trans isBase)
    cases Option.some.inj (hasSize.symm.trans isWidth)
    exact inside

theorem locationBytes_eq_of_mustAlias (form : VariableForm fn) {fuel : Nat}
    (isFirst : irAliasDecode fn.gen fuel first = some (some lhs))
    (isSecond : irAliasDecode fn.gen otherFuel second = some (some rhs))
    (firstAnalyzable : Analyzable fn first) (secondAnalyzable : Analyzable fn second)
    (mustAlias : irAliasClassify lhs rhs = .mustAlias) :
    locationBytes fn place first lhs = locationBytes fn place second rhs := by
  rcases firstAnalyzable.width _ _ isFirst with ⟨length, hasLength, lengthSize⟩
  rcases secondAnalyzable.width _ _ isSecond with ⟨size, hasSize, sizeSize⟩
  rcases exists_of_irAliasDecode isFirst with ⟨_, left, _, _, isLeft, leftDecodes, _⟩
  rcases exists_of_irAliasDecode isSecond with ⟨_, right, _, _, isRight, rightDecodes, _⟩
  have same : left = right ∧ lhs.offset = rhs.offset ∧ length = size := by
    unfold irAliasClassify at mustAlias
    rw [isLeft, isRight] at mustAlias
    dsimp only at mustAlias
    split_ifs at mustAlias with differ unknown same
    · simp only [not_or] at unknown
      rcases leftDecodes.exists_variable with ⟨var, isVar, _⟩
      rcases rightDecodes.exists_variable with ⟨otherVar, isOtherVar, _⟩
      refine ⟨form.symbols var otherVar left right isVar isOtherVar (not_not.mp differ), same.1, ?_⟩
      rw [← lengthSize.resolve_left unknown.2.2.1, ← sizeSize.resolve_left unknown.2.2.2, same.2]
    · split at mustAlias
      next => split_ifs at mustAlias
      next => cases mustAlias
  unfold locationBytes
  rw [isLeft, isRight, hasLength, hasSize, same.1, same.2.1, same.2.2]

/-! ## The answers of `IRAliasInstMayClobber` -/

variable {base : Symbol}

/-- A variable that is neither static nor extern by its kind is automatic. -/
theorem isAutomatic_of_rootKind (form : VariableForm fn)
    (isVariable : (fn.gen.nodes id).variableSymbol = some base)
    (notStatic : rootKind (fn.gen.nodes id) ≠ .static)
    (notExtern : rootKind (fn.gen.nodes id) ≠ .external) : base.isAutomatic = true := by
  have opcodes := isVariable
  unfold IRNode.variableSymbol at opcodes
  unfold rootKind at notStatic notExtern
  rw [isVariable] at notStatic notExtern
  split at opcodes
  next isLocal => exact form.automatic id base isVariable (Or.inl isLocal)
  next isArgument => exact form.automatic id base isVariable (Or.inr (Or.inl isArgument))
  next isTemporary => exact form.automatic id base isVariable (Or.inr (Or.inr isTemporary))
  next isStatic => simp [isStatic] at notStatic
  next isExtern => simp [isExtern] at notExtern
  next isVersion =>
      simp only [isVersion] at notStatic notExtern
      unfold Symbol.isAutomatic
      split_ifs at notStatic notExtern <;> simp_all
  next isPhi =>
      simp only [isPhi] at notStatic notExtern
      unfold Symbol.isAutomatic
      split_ifs at notStatic notExtern <;> simp_all
  next => cases opcodes

/-- A location that an unknown effect does not clobber is in a hidden variable. -/
theorem locationBytes_subset_hidden (form : VariableForm fn)
    (decoded : irAliasDecode fn.gen fuel id = some (some location))
    (spared : unknownEffectMayClobber location = false) :
    ∀ byte ∈ locationBytes fn place id location, byte.1 ∈ hidden fn place := by
  rintro byte ⟨base, width, isBase, _, inside⟩
  rcases exists_of_irAliasDecode decoded with ⟨_, found, _, _, isFound, decodes, _, _, escaped⟩
  cases Option.some.inj (isFound.symm.trans isBase)
  unfold unknownEffectMayClobber at spared
  rw [isBase, escaped] at spared
  simp only [Option.isNone_some, Bool.false_or, Bool.or_eq_true] at spared
  split_ifs at spared with unmarked
  simp only [not_or, Bool.not_eq_true] at unmarked
  simp only [Bool.or_eq_false_iff, decide_eq_false_iff_not] at spared
  rcases decodes.exists_variable with ⟨var, isVar, isKind⟩
  rw [← isKind] at spared
  exact ⟨var, base, isVar, isAutomatic_of_rootKind form isVar spared.1 spared.2, unmarked.1,
    inside.1⟩

/-- Bytes of objects that are not hidden are no bytes of such a location. -/
theorem disjoint_locationBytes {region : Set (Location Object)} (form : VariableForm fn)
    (decoded : irAliasDecode fn.gen fuel id = some (some location))
    (spared : unknownEffectMayClobber location = false)
    (visible : ∀ byte ∈ region, byte.1 ∉ hidden fn place) :
    Disjoint region (locationBytes fn place id location) := by
  rw [Set.disjoint_left]
  intro byte inRegion inLocation
  exact visible byte inRegion (locationBytes_subset_hidden form decoded spared byte inLocation)

variable {opcode : IROpcode}

/-- The instructions that `IRIsStore` does not list, and the two conversions, write
nothing, calls and `asm` statements apart. -/
theorem writes_of_not_isStore
    (silent : opcode.isStore = false ∨ opcode = .addressof ∨ opcode = .cast) :
    opcode.memoryAccess = .none ∨ opcode.memoryAccess = .load ∨ opcode = .calla ∨
      opcode = .asm := by
  cases opcode <;> simp_all [IROpcode.isStore, IROpcode.memoryAccess]

/-- A store or a step is listed by `IRIsStore`, and `IRAliasDecode` looks at it. -/
theorem isStore_of_access (access : opcode.memoryAccess = .store ∨ opcode.memoryAccess = .update) :
    opcode.isStore = true ∧ opcode ≠ .addressof ∧ opcode ≠ .cast ∧ opcode ≠ .memcpy ∧
      opcode ≠ .memzero ∧ opcode ≠ .atomicFence := by
  cases opcode <;> simp_all [IROpcode.isStore, IROpcode.memoryAccess]

theorem decodeAddress_variable {gen : Generator} {start : Int}
    (isVariable : (gen.nodes id).variableSymbol = some base) :
    decodeAddress gen (fuel + 1) id start =
      some (some (base, rootKind (gen.nodes id), start)) := by
  have known : rootKind (gen.nodes id) ≠ .unknown := by
    unfold rootKind
    rw [isVariable]
    unfold IRNode.variableSymbol at isVariable
    split at isVariable
    all_goals first
      | next isOpcode => simp [isOpcode]
      | next isOpcode =>
        simp only [isOpcode]
        split_ifs <;> simp
      | cases isVariable
  have opcodes := isVariable
  unfold IRNode.variableSymbol at opcodes
  unfold decodeAddress
  dsimp only
  split
  next isSum _ => simp only [isSum, reduceCtorEq] at opcodes
  next isAddress _ => simp only [isAddress, reduceCtorEq] at opcodes
  next isCast _ => simp only [isCast, reduceCtorEq] at opcodes
  next => simp only [isVariable, known, if_false]

/-- The address of a load, a store or a step that is not decoded is in no hidden
variable. -/
theorem address_not_hidden (confined : Confined fn place state) (form : VariableForm fn)
    (distinct : DistinctObjects fn place) (analyzable : Analyzable fn id)
    (access : (fn.gen.nodes id).opcode.memoryAccess = .store ∨
      (fn.gen.nodes id).opcode.memoryAccess = .update)
    (undecoded : irAliasDecode fn.gen fuel id = some none) {object : Object} {word : BitVec 64}
    (performs : fn.address place state id = some (object, word)) : object ∉ hidden fn place := by
  intro isHidden
  rcases MemoryFunction.exists_of_address performs with ⟨base, value, isHead, evaluates, carries, _⟩
  rcases confined.variable_of_hidden form distinct evaluates carries isHidden with
    ⟨symbol, isVariable, _, untaken, _⟩
  rcases analyzable.offsets base symbol isHead isVariable untaken with ⟨offset, adds⟩
  have opcodes := isStore_of_access access
  unfold irAliasDecode at undecoded
  rw [List.head?_eq_some_iff] at isHead
  rcases isHead with ⟨rest, inputs⟩
  simp only [inputs, opcodes, Bool.not_true, Bool.and_false, Bool.false_eq_true, if_false,
    or_self] at undecoded
  cases fuel with
  | zero => cases undecoded
  | succ fuel =>
    rw [decodeAddress_variable isVariable] at undecoded
    simp only [Option.map_some, Option.bind_some, adds] at undecoded
    cases undecoded

/-- An instruction that is not decoded writes no hidden variable. -/
theorem writes_not_hidden (confined : Confined fn place state) (form : VariableForm fn)
    (distinct : DistinctObjects fn place) (analyzable : Analyzable fn id)
    (listed : fn.Lists id) (evaluated : fn.isStanding id = false)
    (inside : (fn.gen.nodes id).opcode ≠ .calla ∧ (fn.gen.nodes id).opcode ≠ .asm)
    (undecoded : irAliasDecode fn.gen fuel id = some none) :
    ∀ byte ∈ fn.writes place state id, byte.1 ∉ hidden fn place := by
  have operands : isPlainAccess (fn.gen.nodes id).opcode = false →
      Disjoint (fn.operandObjects place state id) (hidden fn place) := by
    intro special
    have reached := confined.reached_disjoint form distinct listed evaluated special
    unfold MemoryFunction.reached at reached
    rw [Set.disjoint_union_left, Set.disjoint_union_left] at reached
    exact reached.1.2
  intro byte written
  unfold MemoryFunction.writes MemoryFunction.touched at written
  cases access : (fn.gen.nodes id).opcode.memoryAccess with
  | none | load =>
    rw [access] at written
    cases written
  | store | update =>
    rw [access] at written
    rcases written with ⟨object, word, width, performs, _, isObject, _⟩
    rw [isObject]
    exact address_not_hidden confined form distinct analyzable (by rw [access]; simp)
      undecoded performs
  | modify =>
    rw [access] at written
    rcases written with ⟨object, word, width, performs, _, isObject, _⟩
    rw [isObject]
    have special := special_of_access access (by simp)
    rcases MemoryFunction.exists_of_address performs with
      ⟨base, value, isHead, evaluates, carries, _⟩
    exact Set.disjoint_left.mp (operands special)
      ⟨base, List.mem_of_head? isHead, value, evaluates, carries⟩
  | objects =>
    rw [access] at written
    exact Set.disjoint_left.mp (operands (special_of_access access (by simp))) written
  | outside => exact absurd (IROpcode.eq_calla_of_access access) inside.1
  | assembly => exact absurd (IROpcode.eq_asm_of_access access) inside.2

/-- An instruction that may not clobber the location writes none of its bytes. -/
theorem writes_disjoint (confined : Confined fn place state)
    (addresses : Addresses fn place state) (form : VariableForm fn)
    (distinct : DistinctObjects fn place) (analyzable : Analyzable fn id)
    (otherAnalyzable : Analyzable fn other) (listed : fn.Lists id)
    (evaluated : fn.isStanding id = false)
    (decoded : irAliasDecode fn.gen otherFuel other = some (some location))
    (spares : irAliasInstMayClobber fn.gen fuel location id = some false) :
    Disjoint (fn.writes place state id) (locationBytes fn place other location) := by
  unfold irAliasInstMayClobber at spares
  dsimp only at spares
  split_ifs at spares with isOutside atomic silent
  · simp only [Option.some.injEq] at spares
    simp only [Bool.or_eq_true, decide_eq_true_eq] at isOutside
    apply disjoint_locationBytes form decoded spares
    have special : isPlainAccess (fn.gen.nodes id).opcode = false := by
      rcases isOutside with isCall | clobbers
      · rw [isCall]
        rfl
      · rw [IRNode.eq_asm_of_clobbers clobbers]
        rfl
    have reached := confined.reached_disjoint form distinct listed evaluated special
    intro byte written
    unfold MemoryFunction.writes at written
    rcases isOutside with isCall | clobbers
    · rw [isCall] at written
      exact Set.disjoint_left.mp reached written
    · rw [IRNode.eq_asm_of_clobbers clobbers, clobbers] at written
      exact Set.disjoint_left.mp reached written
  · simp only [Option.some.injEq, reduceCtorEq] at spares
  · simp only [Bool.or_eq_true, Bool.not_eq_true', decide_eq_true_eq, or_assoc] at silent
    simp only [Bool.or_eq_true, decide_eq_true_eq, not_or, Bool.not_eq_true] at isOutside
    unfold MemoryFunction.writes
    rcases writes_of_not_isStore silent with access | access | isCall | isAsm
    · rw [access]
      exact Set.empty_disjoint _
    · rw [access]
      exact Set.empty_disjoint _
    · exact absurd isCall isOutside.1
    · have outputs := analyzable.outputs isAsm isOutside.2
      rw [isAsm, isOutside.2]
      rw [Set.disjoint_left]
      rintro byte ⟨index, size, isOutput, _⟩
      rw [outputs] at isOutput
      cases isOutput
  · simp only [Bool.or_eq_true, Bool.not_eq_true', decide_eq_true_eq, not_or] at silent
    simp only [Bool.or_eq_true, decide_eq_true_eq, not_or, Bool.not_eq_true] at isOutside
    have inside : (fn.gen.nodes id).opcode ≠ .calla ∧ (fn.gen.nodes id).opcode ≠ .asm := by
      refine ⟨isOutside.1, ?_⟩
      intro isAsm
      rw [isAsm] at silent
      exact silent.1.1 rfl
    rcases Option.map_eq_some_iff.mp spares with ⟨effect, isEffect, answer⟩
    cases effect with
    | none =>
      exact disjoint_locationBytes form decoded answer
        (writes_not_hidden confined form distinct analyzable listed evaluated inside isEffect)
    | some effect =>
      simp only [bne_eq_false_iff_eq] at answer
      have apart := disjoint_of_noAlias distinct decoded isEffect otherAnalyzable analyzable answer
      apply Set.disjoint_of_subset_left _ apart.symm
      refine Set.Subset.trans ?_ (touched_subset addresses analyzable isEffect)
      unfold MemoryFunction.writes
      cases access : (fn.gen.nodes id).opcode.memoryAccess with
      | none | load => exact Set.empty_subset _
      | store | update | modify | objects => exact Set.Subset.refl _
      | outside => exact absurd (IROpcode.eq_calla_of_access access) inside.1
      | assembly => exact absurd (IROpcode.eq_asm_of_access access) inside.2

end DaveCC.Optimization

/-!
## The answers of alias analysis

In every run, the answers about instructions that meet the condition of the analysis are
right. They are not where an `asm` statement has outputs and no memory clobber: it writes
them, and `IRIsStore` does not list it.
-/

namespace DaveCC.Optimization

open DaveCC.Backend DaveCC.Memory DaveCC.Optimization.AliasAnalysis

/-- In every run, the answers about instructions that meet the condition are right. -/
structure SoundWhere {Object : Type} (fn : MemoryFunction) (place : Nat → Object)
    (start : Config Object) (condition : NodeId → Prop) : Prop where
  /-- Accesses that do not alias touch different bytes. -/
  noAlias : ∀ first second before after lhs rhs fuel otherFuel, condition first → condition second →
    irAliasDecode fn.gen fuel first = some (some lhs) →
    irAliasDecode fn.gen otherFuel second = some (some rhs) →
    irAliasClassify lhs rhs = .noAlias →
    fn.Arrives place start first before → fn.Arrives place start second after →
      Disjoint (fn.touched place before first) (fn.touched place after second)
  /-- Accesses that must alias touch the same bytes. -/
  mustAlias : ∀ first second before after lhs rhs fuel otherFuel,
    condition first → condition second →
    irAliasDecode fn.gen fuel first = some (some lhs) →
    irAliasDecode fn.gen otherFuel second = some (some rhs) →
    irAliasClassify lhs rhs = .mustAlias →
    fn.Arrives place start first before → (fn.address place before first).isSome = true →
    fn.Arrives place start second after → (fn.address place after second).isSome = true →
      fn.touched place before first = fn.touched place after second
  /-- An instruction that may not clobber a location leaves its bytes as they are. -/
  clobber : ∀ id other before after location fuel otherFuel, condition id → condition other →
    irAliasDecode fn.gen otherFuel other = some (some location) →
    irAliasInstMayClobber fn.gen fuel location id = some false →
    fn.Arrives place start id before → fn.Executes place id before after →
      ∀ byte ∈ locationBytes fn place other location, after.memory byte = before.memory byte

variable {Object : Type} {fn : MemoryFunction} {place : Nat → Object} {start : Config Object}
  {id : NodeId} {state : MachineState Object}

theorem addresses_of_arrives (form : VariableForm fn) (starts : fn.Starts place start)
    (arrives : fn.Arrives place start id state) : Addresses fn place state := by
  rcases arrives with ⟨config, reaches, _, rfl⟩
  exact addresses_of_reaches form starts reaches

theorem confined_of_arrives (form : VariableForm fn) (distinct : DistinctObjects fn place)
    (starts : fn.Starts place start) (arrives : fn.Arrives place start id state) :
    Confined fn place state := by
  rcases arrives with ⟨config, reaches, _, rfl⟩
  exact confined_of_reaches form distinct starts reaches

/-- The variable of `int x; asm("..." : "=r"(x)); return x;`. Its address is marked. -/
def asmVariable : Symbol where
  id := 0
  type := { declarator := .primitive, type := kTypeInt, size := 4 }
  isLocal := true
  addressTaken := true

/-- The variable, the text, the statement and the load of the variable. -/
def asmNode : NodeId → IRNode
  | 0 => { opcode := .localvar, outputs := [2, 3], symbol := some asmVariable }
  | 1 => { opcode := .const32, outputs := [2] }
  | 2 => { opcode := .asm, inputs := [1, 0] }
  | 3 => { opcode := .load32, inputs := [0] }
  | _ => { opcode := .label }

def asmFunction : MemoryFunction where
  gen :=
    { nodes := asmNode
      basicBlocks := [{ instructions := [0, 2, 3] }]
      entryBlock := 0 }
  pointerSize := 8
  asmOutputs := fun id => if id = 2 then [4] else []
  isNrvo := fun _ => false

/-- Every variable is the object with its number. -/
def asmPlace (number : Nat) : Nat := number

def asmStart : Config Nat where
  block := 0
  rest := [0, 2, 3]
  state := { values := fun _ => none, memory := fun _ => ⟨0, none⟩, known := ∅ }
  result := none

theorem variable_asmNode {id : NodeId} {symbol : Symbol}
    (isVariable : (asmNode id).variableSymbol = some symbol) : id = 0 ∧ symbol = asmVariable := by
  unfold asmNode at isVariable
  split at isVariable
  next => exact ⟨rfl, (Option.some.inj isVariable).symm⟩
  all_goals cases isVariable

theorem variableForm_asmFunction : VariableForm asmFunction := by
  constructor
  · intro first second symbol other isFirst isSecond _
    rw [(variable_asmNode isFirst).2, (variable_asmNode isSecond).2]
  · intro id symbol isVariable _
    rw [(variable_asmNode isVariable).2]
    rfl
  · intro id _ input _ symbol isVariable untaken
    rw [(variable_asmNode isVariable).2] at untaken
    cases untaken
  · intro id symbol _ slot
    cases slot
  · intro id dest isDest
    have none : (asmNode id).dest = none := by
      unfold asmNode
      split <;> rfl
    rw [show asmFunction.gen.nodes id = asmNode id from rfl, none] at isDest
    cases isDest

theorem variableForm_markVariables_asmFunction : VariableForm { asmFunction with
    gen := markVariablesWhoseAddressEscapes asmFunction.isNrvo [0] asmFunction.gen } := by
  have form := variableForm_asmFunction
  have linked : ∀ id ∈ [0, 2, 3], ∀ input ∈ (asmNode id).inputs, id ∈ (asmNode input).outputs := by
    decide
  refine variableForm_markVariables form.symbols form.automatic form.temporary ?_ ?_
  · intro id symbol isVariable
    exact List.mem_singleton.mpr (variable_asmNode isVariable).1
  · rintro id ⟨block, inBlock⟩
    cases block with
    | zero => exact linked id inBlock
    | succ => cases inBlock

theorem distinctObjects_asmFunction : DistinctObjects asmFunction asmPlace :=
  fun _ _ _ _ _ _ same => same

theorem starts_asmFunction : asmFunction.Starts asmPlace asmStart := by
  constructor
  · rfl
  · rfl
  · exact Set.empty_disjoint _
  · rw [Set.disjoint_left]
    rintro object ⟨_, carries⟩
    cases carries
  · intro _ _ isValue
    cases isValue

end DaveCC.Optimization
