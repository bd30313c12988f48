import DaveCC.Backend.HiddenVariables

/-!
# Alias analysis

The object-based alias analysis of `alias.c`. A location is a variable with an offset and
a size in bytes. An absent result stands for an address whose operands the fuel does not
suffice to follow; a decoder that gives up returns `some none`.
-/

namespace DaveCC.Optimization

open DaveCC.Backend

def kInt64Max : Int := 2 ^ 63 - 1
def kInt64Min : Int := -2 ^ 63

/-- `IR_MEMORY_OFFSET_UNKNOWN`. -/
def kMemoryOffsetUnknown : Int := kInt64Min

def kUint32Max : Nat := 2 ^ 32 - 1

/-- `Int64AddOverflow`: the sum, unless it overflows. -/
def int64Add (left right : Int) : Option Int :=
  if (right > 0 ∧ left > kInt64Max - right) ∨ (right < 0 ∧ left < kInt64Min - right) then none
  else some (left + right)

/-- `IRMemoryRootKind`. -/
inductive MemoryRootKind where
  | unknown | local | argument | temporary | static | external
  deriving DecidableEq, Repr

/-- `IRMemoryLocation`. The base may be `NULL`. -/
structure MemoryLocation where
  base : Option Symbol
  kind : MemoryRootKind
  offset : Int
  size : Nat
  escaped : Bool
  volatileAccess : Bool
  atomicAccess : Bool
  deriving DecidableEq, Repr

/-- `IRAliasResult`. -/
inductive AliasResult where
  | noAlias | mayAlias | mustAlias
  deriving DecidableEq, Repr

/-- `RootKind`. A version of a variable has the kind of its symbol. -/
def rootKind (node : IRNode) : MemoryRootKind :=
  match node.opcode with
  | .localvar => .local
  | .argument => .argument
  | .tempvar => .temporary
  | .staticvar => .static
  | .externvar => .external
  | .ssavar | .phi =>
    match node.variableSymbol with
    | none => .unknown
    | some symbol =>
      if symbol.isArgument then .argument
      else if symbol.isTemp then .temporary
      else if symbol.isLocal && !symbol.storageIs kStorageStatic then .local
      else if symbol.storageIs kStorageExtern then .external
      else .static
  | _ => .unknown

def isAtomic : IROpcode → Bool
  | .atomicLoad | .atomicStore | .atomicFetchAdd | .atomicFetchSub | .atomicAddFetch
  | .atomicSubFetch | .atomicCompareExchangeBool | .atomicCompareExchangeVal
  | .atomicCompareExchangeN | .atomicFence => true
  | _ => false

/-- The size of a type that has one which fits a `uint32_t`. -/
def typedSize (type : Option TypeRecord) : Option Nat :=
  (type.map (·.size)).filter fun size => 0 < size && size ≤ kUint32Max

namespace AliasAnalysis

variable (gen : Generator)

def accessSize (inst : IRNode) : Nat :=
  match inst.opcode with
  | .load8 | .loadu8 | .store8 | .inc8 | .uinc8 | .dec8 | .udec8 => 1
  | .load16 | .loadu16 | .store16 | .inc16 | .uinc16 | .dec16 | .udec16 => 2
  | .load32 | .loadu32 | .store32 | .loadf | .storef | .inc32 | .uinc32 | .dec32 | .udec32 => 4
  | .load64 | .store64 | .inc64 | .uinc64 | .dec64 | .udec64 => 8
  | .loadd | .stored => (typedSize inst.type).getD 8
  | _ =>
    match typedSize inst.type with
    | some size => size
    | none =>
      match inst.inputs[1]? with
      | some value => (typedSize (gen.nodes value).type).getD 0
      | none => 0

/-- `IRIntConstValue` of an integer constant. -/
def intConst (id : NodeId) : Option Int :=
  if (gen.nodes id).opcode.isIntConst then some (gen.nodes id).ivalue.toInt else none

/-- `DecodeAddress`: the variable behind an address, its kind and the offset. -/
def decodeAddress : Nat → NodeId → Int → Option (Option (Symbol × MemoryRootKind × Int))
  | 0, _, _ => none
  | fuel + 1, address, offset =>
    let node := gen.nodes address
    match node.opcode, node.inputs with
    | .adda, [left, right] =>
      match intConst gen left, intConst gen right with
      | some constant, _ =>
        match int64Add offset constant with
        | none => some none
        | some combined => decodeAddress fuel right combined
      | none, some constant =>
        match int64Add offset constant with
        | none => some none
        | some combined => decodeAddress fuel left combined
      | none, none => some none
    | .addressof, [source] | .cast, [source] => decodeAddress fuel source offset
    | _, _ =>
      match node.variableSymbol with
      | none => some none
      | some symbol =>
        some (if rootKind node = .unknown then none else some (symbol, rootKind node, offset))

/-- `AddIndexOperands` on the operands from `start` on. -/
def addIndexOperands (inst : IRNode) (start : Nat) (offset : Int) : Option Int :=
  (inst.inputs.drop start).foldlM
    (fun offset extra => (intConst gen extra).bind (int64Add offset)) offset

/-- The offset with the index operands of a load or a store. -/
def addOffsets (inst : IRNode) (offset : Int) : Option Int :=
  if inst.opcode.isLoadOnly then addIndexOperands gen inst 1 offset
  else if inst.opcode.isStoreOnly then addIndexOperands gen inst 2 offset
  else some offset

def irAliasDecode (fuel : Nat) (id : NodeId) : Option (Option MemoryLocation) :=
  let inst := gen.nodes id
  match inst.inputs with
  | [] => some none
  | address :: _ =>
    if !inst.opcode.isLoadOnly && !inst.opcode.isStore then some none
    else if inst.opcode = .addressof ∨ inst.opcode = .cast ∨ inst.opcode = .memcpy ∨
        inst.opcode = .memzero ∨ inst.opcode = .atomicFence then some none
    else
      (decodeAddress gen fuel address 0).map fun decoded =>
        decoded.bind fun (base, kind, start) =>
          (addOffsets gen inst start).map fun offset =>
            { base := some base
              kind
              offset
              size := accessSize gen inst
              escaped := base.addressTaken || base.type.isArray
              volatileAccess := inst.type.any TypeRecord.chainIsVolatile ||
                (gen.nodes address).type.any TypeRecord.chainIsVolatile
              atomicAccess := isAtomic inst.opcode }

end AliasAnalysis

def irAliasClassify (lhs rhs : MemoryLocation) : AliasResult :=
  match lhs.base, rhs.base with
  | some left, some right =>
    if left.id ≠ right.id then .noAlias
    else if lhs.offset = kMemoryOffsetUnknown ∨ rhs.offset = kMemoryOffsetUnknown ∨
        lhs.size = 0 ∨ rhs.size = 0 then .mayAlias
    else if lhs.offset = rhs.offset ∧ lhs.size = rhs.size then .mustAlias
    else
      match int64Add lhs.offset lhs.size, int64Add rhs.offset rhs.size with
      | some lhsEnd, some rhsEnd =>
        if lhsEnd ≤ rhs.offset ∨ rhsEnd ≤ lhs.offset then .noAlias else .mayAlias
      | _, _ => .mayAlias
  | _, _ => .mayAlias

def unknownEffectMayClobber (location : MemoryLocation) : Bool :=
  if location.base.isNone || location.escaped then true
  else location.kind = .static || location.kind = .external

def irAliasInstMayClobber (gen : Generator) (fuel : Nat) (location : MemoryLocation)
    (id : NodeId) : Option Bool :=
  let inst := gen.nodes id
  if inst.opcode = .calla || inst.asmClobbersMemory then
    some (unknownEffectMayClobber location)
  else if isAtomic inst.opcode then some true
  else if !inst.opcode.isStore || inst.opcode = .addressof || inst.opcode = .cast then some false
  else
    (AliasAnalysis.irAliasDecode gen fuel id).map fun
      | none => unknownEffectMayClobber location
      | some effect => irAliasClassify location effect != .noAlias

end DaveCC.Optimization

/-!
## Decoded addresses

In every run, an address that `DecodeAddress` follows evaluates to the variable and the
offset it returns. So the location of an instruction is where it reads or writes.
-/

namespace DaveCC.Optimization

open DaveCC.Backend DaveCC.Memory DaveCC.Optimization.AliasAnalysis

variable {Object : Type} {fn : MemoryFunction} {place : Nat → Object} {id : NodeId}
  {state before after : MachineState Object}

/-- The offset is a signed word. -/
def IsWord (offset : Int) : Prop :=
  kInt64Min ≤ offset ∧ offset ≤ kInt64Max

theorem isWord_toInt (word : BitVec 64) : IsWord word.toInt := by
  have lower := BitVec.le_toInt word
  have upper := BitVec.toInt_lt (x := word)
  unfold IsWord kInt64Min kInt64Max
  omega

theorem isWord_zero : IsWord 0 := by
  unfold IsWord kInt64Min kInt64Max
  omega

theorem int64Add_eq_some {left right sum : Int} (isLeft : IsWord left) (isRight : IsWord right)
    (adds : int64Add left right = some sum) : sum = left + right ∧ IsWord sum := by
  unfold int64Add at adds
  unfold IsWord kInt64Min kInt64Max at *
  split_ifs at adds with overflows
  cases adds
  omega

variable {constant : Int}

theorem isWord_of_intConst {gen : Generator} (isConst : intConst gen id = some constant) :
    IsWord constant := by
  unfold intConst at isConst
  split_ifs at isConst
  cases isConst
  exact isWord_toInt _

/-- A constant is no variable. -/
theorem variableSymbol_of_isConst {node : IRNode} (isConst : node.opcode.isConst = true) :
    node.variableSymbol = none := by
  unfold IRNode.variableSymbol
  split
  all_goals first
    | rfl
    | next isVariable =>
      rw [isVariable] at isConst
      exact absurd isConst (by decide)

/-- An integer constant evaluates to itself. -/
theorem operand_of_intConst (isConst : intConst fn.gen id = some constant) :
    fn.operand place state id = some ⟨BitVec.ofInt 64 constant, none⟩ := by
  unfold intConst at isConst
  split_ifs at isConst with isInt
  cases isConst
  · have isConst : (fn.gen.nodes id).opcode.isConst = true := by
      unfold IROpcode.isIntConst at isInt
      simp only [Bool.and_eq_true] at isInt
      exact isInt.1.1
    unfold MemoryFunction.operand
    rw [variableSymbol_of_isConst isConst, isConst, BitVec.ofInt_toInt]
    rfl

/-! ## Addresses -/

/-- The address, computed from `start`, leads to the variable and the offset. -/
inductive Decodes (gen : Generator) (base : Symbol) (kind : MemoryRootKind) (offset : Int) :
    NodeId → Int → Prop where
  | addLeft {address left right : NodeId} {start constant combined : Int}
      (isSum : (gen.nodes address).opcode = .adda)
      (inputs : (gen.nodes address).inputs = [left, right])
      (isConst : intConst gen left = some constant)
      (adds : int64Add start constant = some combined)
      (onwards : Decodes gen base kind offset right combined) :
      Decodes gen base kind offset address start
  | addRight {address left right : NodeId} {start constant combined : Int}
      (isSum : (gen.nodes address).opcode = .adda)
      (inputs : (gen.nodes address).inputs = [left, right])
      (isConst : intConst gen right = some constant)
      (adds : int64Add start constant = some combined)
      (onwards : Decodes gen base kind offset left combined) :
      Decodes gen base kind offset address start
  | pass {address source : NodeId} {start : Int}
      (isPassed : (gen.nodes address).opcode = .addressof ∨ (gen.nodes address).opcode = .cast)
      (inputs : (gen.nodes address).inputs = [source])
      (onwards : Decodes gen base kind offset source start) :
      Decodes gen base kind offset address start
  | root {address : NodeId} (isVariable : (gen.nodes address).variableSymbol = some base)
      (isKind : rootKind (gen.nodes address) = kind) :
      Decodes gen base kind offset address offset

/-- The value is the address of the offset in the variable, unless it is none. -/
def IsAddressOf (place : Nat → Object) (value : Value Object) (base : Symbol) (offset : Int) :
    Prop :=
  ∀ object, value.object = some object →
    object = place base.id ∧ value.word = BitVec.ofInt 64 offset

/-- What the instructions evaluated to are the addresses that they decode to. -/
def Addresses (fn : MemoryFunction) (place : Nat → Object) (state : MachineState Object) : Prop :=
  ∀ id value start base kind offset, (fn.gen.nodes id).variableSymbol = none → IsWord start →
    state.values id = some value → Decodes fn.gen base kind offset id start →
      IsAddressOf place value base (offset - start)

variable {fuel : Nat}

theorem decodes_of_decodeAddress {gen : Generator} {address : NodeId} {start offset : Int}
    {base : Symbol} {kind : MemoryRootKind}
    (returns : decodeAddress gen fuel address start = some (some (base, kind, offset))) :
    Decodes gen base kind offset address start := by
  induction fuel generalizing address start with
  | zero => cases returns
  | succ fuel ih =>
    unfold decodeAddress at returns
    dsimp only at returns
    split at returns
    next left right isSum inputs =>
        split at returns
        next _ constant isConst =>
            split at returns
            next => cases returns
            next combined adds => exact .addLeft isSum inputs isConst adds (ih returns)
        next constant _ isConst =>
            split at returns
            next => cases returns
            next combined adds => exact .addRight isSum inputs isConst adds (ih returns)
        next => cases returns
    next source isAddress inputs => exact .pass (Or.inl isAddress) inputs (ih returns)
    next source isCast inputs => exact .pass (Or.inr isCast) inputs (ih returns)
    next =>
        split at returns
        next => cases returns
        next symbol isVariable =>
            split_ifs at returns with unknown
            · cases returns
            · simp only [Option.some.injEq, Prod.mk.injEq] at returns
              rw [← returns.2.2]
              exact .root (isVariable.trans (congrArg some returns.1)) returns.2.1

section Addresses

variable {base : Symbol} {kind : MemoryRootKind} {start offset : Int} {value : Value Object}

/-- The operand of an instruction is the address that it decodes to. -/
theorem Addresses.operand (addresses : Addresses fn place state)
    (evaluates : fn.operand place state id = some value) (isWord : IsWord start)
    (decodes : Decodes fn.gen base kind offset id start) :
    IsAddressOf place value base (offset - start) := by
  unfold MemoryFunction.operand at evaluates
  cases isVariable : (fn.gen.nodes id).variableSymbol with
  | none =>
    rw [isVariable] at evaluates
    split_ifs at evaluates with isConst
    · cases evaluates
      intro object carries
      cases carries
    · exact addresses id value start base kind offset isVariable isWord evaluates decodes
  | some symbol =>
    rw [isVariable] at evaluates
    cases evaluates
    have same : symbol = base ∧ offset = start := by
      unfold IRNode.variableSymbol at isVariable
      cases decodes with
      | addLeft isSum | addRight isSum =>
        rw [isSum] at isVariable
        cases isVariable
      | pass isPassed =>
        rcases isPassed with isAddress | isCast
        · rw [isAddress] at isVariable
          cases isVariable
        · rw [isCast] at isVariable
          cases isVariable
      | root isBase => exact ⟨Option.some.inj (isVariable.symm.trans isBase), rfl⟩
    intro object carries
    cases carries
    rw [same.1, same.2, sub_self]
    exact ⟨rfl, rfl⟩

/-- A sum with a constant is the address that it decodes to. -/
theorem IsAddressOf.add {source number : Value Object} {constant combined : Int}
    (isAddress : IsAddressOf place source base (offset - combined))
    (isNumber : number = ⟨BitVec.ofInt 64 constant, none⟩) (isSum : combined = start + constant) :
    IsAddressOf place (source.add number) base (offset - start) ∧
      IsAddressOf place (number.add source) base (offset - start) := by
  have total : offset - start = offset - combined + constant := by omega
  constructor
  · rw [Value.add_number (by rw [isNumber])]
    intro object carries
    rcases isAddress object carries with ⟨isBase, isWord⟩
    refine ⟨isBase, ?_⟩
    rw [isWord, isNumber, total, BitVec.ofInt_add]
  · rw [Value.number_add (by rw [isNumber])]
    intro object carries
    rcases isAddress object carries with ⟨isBase, isWord⟩
    refine ⟨isBase, ?_⟩
    rw [isWord, isNumber, total, BitVec.ofInt_add, BitVec.add_comm]

/-- What an instruction evaluates to is the address that it decodes to. -/
theorem Addresses.produces (addresses : Addresses fn place state)
    (noVariable : (fn.gen.nodes id).variableSymbol = none)
    (produces : fn.Produces place state id value)
    (isWord : IsWord start) (decodes : Decodes fn.gen base kind offset id start) :
    IsAddressOf place value base (offset - start) := by
  unfold MemoryFunction.Produces at produces
  cases decodes with
  | addLeft isSum inputs isConst adds onwards =>
    rw [isSum, inputs] at produces
    rcases produces with ⟨first, second, isFirst, isSecond, isValue⟩
    have evaluates : fn.operand place state _ = some _ := operand_of_intConst isConst
    have sum := int64Add_eq_some isWord (isWord_of_intConst isConst) adds
    have isNumber := Option.some.inj (isFirst.symm.trans evaluates)
    rw [isValue]
    exact ((addresses.operand isSecond sum.2 onwards).add isNumber sum.1).2
  | addRight isSum inputs isConst adds onwards =>
    rw [isSum, inputs] at produces
    rcases produces with ⟨first, second, isFirst, isSecond, isValue⟩
    have evaluates : fn.operand place state _ = some _ := operand_of_intConst isConst
    have sum := int64Add_eq_some isWord (isWord_of_intConst isConst) adds
    have isNumber := Option.some.inj (isSecond.symm.trans evaluates)
    rw [isValue]
    exact ((addresses.operand isFirst sum.2 onwards).add isNumber sum.1).1
  | pass isPassed inputs onwards =>
    rcases isPassed with isAddress | isCast
    · rw [isAddress, inputs] at produces
      exact addresses.operand produces isWord onwards
    · rw [isCast, inputs] at produces
      dsimp only at produces
      split_ifs at produces with narrowed
      · intro object carries
        rw [produces] at carries
        cases carries
      · exact addresses.operand produces isWord onwards
  | root isVariable =>
    rw [noVariable] at isVariable
    cases isVariable

variable {address : NodeId}

/-- A temporary or the return slot decodes to nothing. -/
theorem not_decodes
    (holds : (fn.gen.nodes address).opcode = .tmp ∨ (fn.gen.nodes address).opcode = .structreturn) :
    ¬ Decodes fn.gen base kind offset address start := by
  intro decodes
  cases decodes with
  | addLeft isSum | addRight isSum =>
    rw [isSum] at holds
    simp at holds
  | pass isPassed =>
    rcases isPassed with isAddress | isCast
    · rw [isAddress] at holds
      simp at holds
    · rw [isCast] at holds
      simp at holds
  | root isVariable =>
    unfold IRNode.variableSymbol at isVariable
    rcases holds with isTemporary | isSlot
    · rw [isTemporary] at isVariable
      cases isVariable
    · rw [isSlot] at isVariable
      cases isVariable

theorem Decodes.isWord {gen : Generator} {address : NodeId}
    (decodes : Decodes gen base kind offset address start) (isWord : IsWord start) :
    IsWord offset := by
  induction decodes with
  | addLeft _ _ isConst adds _ ih | addRight _ _ isConst adds _ ih =>
    exact ih (int64Add_eq_some isWord (isWord_of_intConst isConst) adds).2
  | pass _ _ _ ih => exact ih isWord
  | root => exact isWord

/-- The variable that an address leads to is that of a node, which gives the kind. -/
theorem Decodes.exists_variable (decodes : Decodes fn.gen base kind offset address start) :
    ∃ var, (fn.gen.nodes var).variableSymbol = some base ∧ rootKind (fn.gen.nodes var) = kind := by
  induction decodes with
  | addLeft _ _ _ _ _ ih | addRight _ _ _ _ _ ih | pass _ _ _ ih => exact ih
  | root isVariable isKind => exact ⟨_, isVariable, isKind⟩

end Addresses

/-- Instructions keep every value the address that it decodes to. -/
theorem Addresses.executes (addresses : Addresses fn place before) (form : VariableForm fn)
    (executes : fn.Executes place id before after) : Addresses fn place after := by
  cases executes with
  | standing => exact addresses
  | evaluates evaluated produces values changes brings known =>
    intro other value start base kind offset noVariable isWord isValue decodes
    rw [values] at isValue
    rcases assign_cases isValue with ⟨same, isNode | isDest⟩ | kept
    · rw [isNode] at noVariable decodes
      rw [same]
      exact addresses.produces noVariable produces isWord decodes
    · exact absurd decodes (not_decodes (Or.inl (form.temporary id other isDest)))
    · exact addresses other value start base kind offset noVariable isWord kept decodes

theorem addresses_of_reaches (form : VariableForm fn) {start config : Config Object}
    (starts : fn.Starts place start) (reaches : fn.Reaches place start config) :
    Addresses fn place config.state := by
  apply reaches.induct (Addresses fn place)
    (fun _ _ _ _ executes addresses => addresses.executes form executes) starts
  intro id value origin base kind offset _ _ isValue decodes
  exact absurd decodes (not_decodes (Or.inr (starts.values id value isValue).1))

variable {location : MemoryLocation}

/-- What `IRAliasDecode` reads to fill in a location. -/
theorem exists_of_irAliasDecode {gen : Generator}
    (decoded : irAliasDecode gen fuel id = some (some location)) :
    ∃ address base start, (gen.nodes id).inputs.head? = some address ∧
      location.base = some base ∧ Decodes gen base location.kind start address 0 ∧
        addOffsets gen (gen.nodes id) start = some location.offset ∧
          location.size = accessSize gen (gen.nodes id) ∧
            location.escaped = (base.addressTaken || base.type.isArray) := by
  unfold irAliasDecode at decoded
  dsimp only at decoded
  split at decoded
  next => cases decoded
  next address rest inputs =>
      split_ifs at decoded
      · cases decoded
      · cases decoded
      · rcases Option.map_eq_some_iff.mp decoded with ⟨found, follows, located⟩
        cases found with
        | none => cases located
        | some root =>
          rcases root with ⟨base, kind, start⟩
          rcases Option.map_eq_some_iff.mp located with ⟨offset, adds, filled⟩
          rw [← filled, inputs]
          exact ⟨address, base, start, rfl, rfl, decodes_of_decodeAddress follows, adds, rfl, rfl⟩

variable {operands : List NodeId}

/-- An offset added up from constants is a word. -/
theorem isWord_of_foldlM {gen : Generator} {start offset : Int} (isWord : IsWord start)
    (adds : operands.foldlM (fun offset extra => (intConst gen extra).bind (int64Add offset))
      start = some offset) : IsWord offset := by
  induction operands generalizing start with
  | nil =>
    cases adds
    exact isWord
  | cons extra operands ih =>
    rcases Option.bind_eq_some_iff.mp adds with ⟨sum, isSum, adds⟩
    rcases Option.bind_eq_some_iff.mp isSum with ⟨constant, isConst, isSum⟩
    exact ih (int64Add_eq_some isWord (isWord_of_intConst isConst) isSum).2 adds

/-- Constant offsets add up to the same in both ways of counting. -/
theorem offset_eq_of_foldlM {start offset : Int} {result : BitVec 64} (isWord : IsWord start)
    (adds : operands.foldlM (fun offset extra => (intConst fn.gen extra).bind (int64Add offset))
      start = some offset)
    (evaluates : operands.foldlM (fun word extra => (fn.operand place state extra).map (word +
      ·.word)) (BitVec.ofInt 64 start) = some result) :
    result = BitVec.ofInt 64 offset := by
  induction operands generalizing start with
  | nil =>
    cases adds
    cases evaluates
    rfl
  | cons extra operands ih =>
    rw [List.foldlM_cons] at adds evaluates
    rcases Option.bind_eq_some_iff.mp adds with ⟨sum, isSum, adds⟩
    rcases Option.bind_eq_some_iff.mp isSum with ⟨constant, isConst, isSum⟩
    rcases Option.bind_eq_some_iff.mp evaluates with ⟨word, isNext, evaluates⟩
    rw [operand_of_intConst isConst] at isNext
    cases isNext
    rcases int64Add_eq_some isWord (isWord_of_intConst isConst) isSum with ⟨total, sumIsWord⟩
    apply ih sumIsWord adds
    rw [total, BitVec.ofInt_add]
    exact evaluates

/-- The address of an instruction that is decoded is the location. -/
theorem Addresses.address_eq (addresses : Addresses fn place state) {object : Object}
    {word : BitVec 64} (decoded : irAliasDecode fn.gen fuel id = some (some location))
    (performs : fn.address place state id = some (object, word)) :
    ∃ base, location.base = some base ∧ object = place base.id ∧
      word = BitVec.ofInt 64 location.offset := by
  rcases exists_of_irAliasDecode decoded with
    ⟨address, base, start, isHead, isBase, decodes, adds, _, _⟩
  refine ⟨base, isBase, ?_⟩
  rcases MemoryFunction.exists_of_address performs with
    ⟨used, value, isUsed, evaluates, carries, offsets⟩
  cases Option.some.inj (isHead.symm.trans isUsed)
  rcases addresses.operand evaluates isWord_zero decodes object carries with ⟨isPlace, isStart⟩
  rw [sub_zero] at isStart
  rw [isStart] at offsets
  refine ⟨isPlace, ?_⟩
  have startIsWord := decodes.isWord isWord_zero
  unfold addOffsets addIndexOperands at adds
  unfold IRNode.offsetOperands at offsets
  split_ifs at adds offsets with isLoad isStore
  · exact offset_eq_of_foldlM startIsWord adds offsets
  · exact offset_eq_of_foldlM startIsWord adds offsets
  · cases adds
    cases offsets
    rfl

theorem isWord_of_irAliasDecode {gen : Generator}
    (decoded : irAliasDecode gen fuel id = some (some location)) : IsWord location.offset := by
  rcases exists_of_irAliasDecode decoded with ⟨_, _, start, _, _, decodes, adds, _, _⟩
  have startIsWord := decodes.isWord isWord_zero
  unfold addOffsets addIndexOperands at adds
  split_ifs at adds
  · exact isWord_of_foldlM startIsWord adds
  · exact isWord_of_foldlM startIsWord adds
  · cases adds
    exact startIsWord

end DaveCC.Optimization
