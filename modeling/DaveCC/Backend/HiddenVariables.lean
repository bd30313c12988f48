import DaveCC.Backend.MemoryEffects

/-!
# Marks of variables whose address escapes

`MarkVariablesWhoseAddressEscapes` of `codegen.c` sets `address_taken` of every variable
whose node is used other than as the place that an instruction reads or writes. Every
variable that is left without the mark is used in no other way.
-/

namespace DaveCC.Backend

/-- The instruction only reads or writes through its first input: `IRIsLoadOnly`,
`IRIsStoreOnly` or `IRIsIncDec`. -/
def isPlainAccess (opcode : IROpcode) : Bool :=
  opcode.isLoadOnly || opcode.isStoreOnly || opcode.isIncDec

def irVariableAddressEscapes (gen : Generator) (var : NodeId) : Bool :=
  (gen.nodes var).outputs.any fun user =>
    !isPlainAccess (gen.nodes user).opcode || ((gen.nodes user).inputs.drop 1).contains var

/-- Set `address_taken` of some symbols. -/
def Generator.takeAddresses (gen : Generator) (taken : Nat → Bool) : Generator :=
  { gen with
    nodes := fun id =>
      { gen.nodes id with
        symbol := (gen.nodes id).symbol.map fun symbol =>
          { symbol with addressTaken := symbol.addressTaken || taken symbol.id } } }

/-- `MarkVariablesWhoseAddressEscapes`, on the nodes of `variable_pool`. -/
def markVariablesWhoseAddressEscapes (isNrvo : Nat → Bool) (variablePool : List NodeId)
    (gen : Generator) : Generator :=
  variablePool.foldl
    (fun gen var =>
      match (gen.nodes var).symbol with
      | none => gen
      | some symbol =>
        if symbol.addressTaken then gen
        else if isNrvo symbol.id || irVariableAddressEscapes gen var then
          gen.takeAddresses (· == symbol.id)
        else gen)
    gen

namespace Generator

variable {gen : Generator} {first second taken : Nat → Bool}

theorem takeAddresses_none : gen.takeAddresses (fun _ => false) = gen := by
  simp [takeAddresses]

theorem takeAddresses_takeAddresses : (gen.takeAddresses first).takeAddresses second =
    gen.takeAddresses fun id => first id || second id := by
  simp [takeAddresses, Function.comp_def, Bool.or_assoc]

@[simp] theorem escapes_takeAddresses (var : NodeId) :
    irVariableAddressEscapes (gen.takeAddresses taken) var = irVariableAddressEscapes gen var :=
  rfl

/-- The variable of a node is the one before, with its mark. -/
theorem variableSymbol_takeAddresses (id : NodeId) :
    ((gen.takeAddresses taken).nodes id).variableSymbol =
      (gen.nodes id).variableSymbol.map fun symbol =>
        { symbol with addressTaken := symbol.addressTaken || taken symbol.id } := by
  unfold IRNode.variableSymbol takeAddresses
  dsimp only
  split <;> rfl

end Generator

variable {gen : Generator} {isNrvo : Nat → Bool} {pool : List NodeId} {id : NodeId}
  {symbol : Symbol}

open Generator

/-- Whether a node makes its symbol escape: it has no mark yet, and it is in the return slot or
an instruction uses the node other than as the place it reads or writes. -/
def marksSymbol (isNrvo : Nat → Bool) (gen : Generator) (id : Nat) (var : NodeId) : Bool :=
  (gen.nodes var).symbol.any fun symbol =>
    symbol.id == id && !symbol.addressTaken && (isNrvo id || irVariableAddressEscapes gen var)

/-- The loop, which looks at the marks it has set, marks the symbols of the nodes that escape. -/
theorem markVariables_takeAddresses (taken : Nat → Bool) :
    markVariablesWhoseAddressEscapes isNrvo pool (gen.takeAddresses taken) =
      gen.takeAddresses fun id => taken id || pool.any (marksSymbol isNrvo gen id) := by
  induction pool generalizing taken with
  | nil => simp [markVariablesWhoseAddressEscapes]
  | cons var pool ih =>
    have step : markVariablesWhoseAddressEscapes isNrvo [var] (gen.takeAddresses taken) =
        gen.takeAddresses fun id => taken id || marksSymbol isNrvo gen id var := by
      have mapped : ((gen.takeAddresses taken).nodes var).symbol =
        Option.map _ (gen.nodes var).symbol := rfl
      rw [markVariablesWhoseAddressEscapes, List.foldl_cons, List.foldl_nil, mapped]
      unfold marksSymbol
      cases (gen.nodes var).symbol with
      | none => simp
      | some symbol =>
        simp only [Option.map_some, Option.any_some, escapes_takeAddresses,
          takeAddresses_takeAddresses]
        split_ifs <;> refine congrArg gen.takeAddresses (funext fun id => ?_) <;>
          rcases eq_or_ne symbol.id id with rfl | ne <;> grind
    change markVariablesWhoseAddressEscapes isNrvo pool
      (markVariablesWhoseAddressEscapes isNrvo [var] (gen.takeAddresses taken)) = _
    rw [step, ih]
    simp only [List.any_cons, Bool.or_assoc]

theorem markVariables_eq_takeAddresses : markVariablesWhoseAddressEscapes isNrvo pool gen =
    gen.takeAddresses fun id => pool.any (marksSymbol isNrvo gen id) := by
  simpa [takeAddresses_none] using @markVariables_takeAddresses gen isNrvo pool fun _ => false

theorem exists_variable_of_markVariables (isVariable :
    ((markVariablesWhoseAddressEscapes isNrvo pool gen).nodes id).variableSymbol = some symbol) :
    ∃ original, (gen.nodes id).variableSymbol = some original ∧ symbol =
      { original with addressTaken :=
          original.addressTaken || pool.any (marksSymbol isNrvo gen original.id) } := by
  rw [markVariables_eq_takeAddresses, variableSymbol_takeAddresses] at isVariable
  rcases Option.map_eq_some_iff.mp isVariable with ⟨original, isOriginal, same⟩
  exact ⟨original, isOriginal, same.symm⟩

/-- A variable that is left without the mark is not in the return slot and does not escape. -/
theorem spared_of_markVariables
    (pooled : ∀ id symbol, (gen.nodes id).variableSymbol = some symbol → id ∈ pool) (isVariable :
    ((markVariablesWhoseAddressEscapes isNrvo pool gen).nodes id).variableSymbol = some symbol)
    (untaken : symbol.addressTaken = false) :
    isNrvo symbol.id = false ∧ irVariableAddressEscapes gen id = false := by
  rcases exists_variable_of_markVariables isVariable with ⟨original, isOriginal, rfl⟩
  have hasSymbol : (gen.nodes id).symbol = some original := by
    unfold IRNode.variableSymbol at isOriginal
    split at isOriginal <;> first | exact isOriginal | cases isOriginal
  rcases Bool.or_eq_false_iff.mp untaken with ⟨unmarked, spares⟩
  have spares := List.any_eq_false.mp spares id (pooled id original isOriginal)
  rw [marksSymbol, hasSymbol] at spares
  simpa [unmarked] using spares

end DaveCC.Backend

/-!
## Hidden variables

A variable of the frame whose address is not marked as taken is hidden: no instruction
uses its node other than as the place it reads or writes. In every run no value, no byte
of memory and no code outside of the function comes to carry a hidden variable.
-/

namespace DaveCC.Backend

open DaveCC.Memory

/-- What the code generator leaves in the nodes of a function. -/
structure VariableForm (fn : MemoryFunction) : Prop where
  /-- A symbol is one pointer. -/
  symbols : ∀ first second symbol other, (fn.gen.nodes first).variableSymbol = some symbol →
    (fn.gen.nodes second).variableSymbol = some other → symbol.id = other.id → symbol = other
  /-- `NewIRVariable` chooses the opcode of a variable by its symbol. -/
  automatic : ∀ id symbol, (fn.gen.nodes id).variableSymbol = some symbol →
    (fn.gen.nodes id).opcode = .localvar ∨ (fn.gen.nodes id).opcode = .argument ∨
      (fn.gen.nodes id).opcode = .tempvar → symbol.isAutomatic = true
  /-- `MarkVariablesWhoseAddressEscapes`, with the operands that SSA form adds to phis. -/
  marked : ∀ id, fn.Lists id → ∀ input ∈ (fn.gen.nodes id).inputs, ∀ symbol,
    (fn.gen.nodes input).variableSymbol = some symbol → symbol.addressTaken = false →
      (fn.gen.nodes id).opcode = .phi ∨
        (isPlainAccess (fn.gen.nodes id).opcode = true ∧ input ∉ (fn.gen.nodes id).inputs.drop 1)
  /-- The same for a variable in the return slot. -/
  returnSlot : ∀ id symbol, (fn.gen.nodes id).variableSymbol = some symbol →
    fn.isNrvo symbol.id = true → symbol.addressTaken = true
  /-- The destination of a result is a temporary. -/
  temporary : ∀ id dest, (fn.gen.nodes id).dest = some dest → (fn.gen.nodes dest).opcode = .tmp

/-- The pass brings a function into this form when the nodes of its variables are in the pool and
list the instructions that use them. -/
theorem variableForm_markVariables {fn : MemoryFunction} {pool : List NodeId}
    (symbols : ∀ first second symbol other, (fn.gen.nodes first).variableSymbol = some symbol →
      (fn.gen.nodes second).variableSymbol = some other → symbol.id = other.id → symbol = other)
    (automatic : ∀ id symbol, (fn.gen.nodes id).variableSymbol = some symbol →
      (fn.gen.nodes id).opcode = .localvar ∨ (fn.gen.nodes id).opcode = .argument ∨
        (fn.gen.nodes id).opcode = .tempvar → symbol.isAutomatic = true)
    (temporary : ∀ id dest, (fn.gen.nodes id).dest = some dest →
      (fn.gen.nodes dest).opcode = .tmp)
    (pooled : ∀ id symbol, (fn.gen.nodes id).variableSymbol = some symbol → id ∈ pool)
    (linked : ∀ id, fn.Lists id → ∀ input ∈ (fn.gen.nodes id).inputs,
      id ∈ (fn.gen.nodes input).outputs) :
    VariableForm { fn with gen := markVariablesWhoseAddressEscapes fn.isNrvo pool fn.gen } := by
  constructor
  · intro first second symbol other isFirst isSecond sameId
    rcases exists_variable_of_markVariables isFirst with ⟨_, wasFirst, rfl⟩
    rcases exists_variable_of_markVariables isSecond with ⟨_, wasSecond, rfl⟩
    rw [symbols first second _ _ wasFirst wasSecond sameId]
  · intro id symbol isVariable kind
    rcases exists_variable_of_markVariables isVariable with ⟨original, isOriginal, rfl⟩
    rw [markVariables_eq_takeAddresses] at kind
    exact automatic id original isOriginal kind
  · intro id lists input isInput symbol isVariable untaken
    have stays := (spared_of_markVariables pooled isVariable untaken).2
    simp only [MemoryFunction.Lists, markVariables_eq_takeAddresses] at lists isInput ⊢
    have plain : isPlainAccess (fn.gen.nodes id).opcode = true ∧
        input ∉ (fn.gen.nodes id).inputs.drop 1 := by
      simpa using List.any_eq_false.mp stays id (linked id lists input isInput)
    exact .inr plain
  · intro id symbol isVariable slot
    by_contra untaken
    have spared := spared_of_markVariables pooled isVariable (Bool.eq_false_iff.mpr untaken)
    exact Bool.false_ne_true (spared.1.symm.trans slot)
  · intro id dest isDest
    rw [markVariables_eq_takeAddresses] at isDest ⊢
    exact temporary id dest isDest

/-- No two symbols of the function name one object. -/
def DistinctObjects {Object : Type} (fn : MemoryFunction) (place : Nat → Object) : Prop :=
  ∀ first second symbol other, (fn.gen.nodes first).variableSymbol = some symbol →
    (fn.gen.nodes second).variableSymbol = some other →
      place symbol.id = place other.id → symbol.id = other.id

/-- The objects of the hidden variables. -/
def hidden {Object : Type} (fn : MemoryFunction) (place : Nat → Object) : Set Object :=
  {object | ∃ id symbol, (fn.gen.nodes id).variableSymbol = some symbol ∧
    symbol.isAutomatic = true ∧ symbol.addressTaken = false ∧ object = place symbol.id}

variable {Object : Type} {fn : MemoryFunction} {place : Nat → Object} {id input : NodeId}
  {symbol : Symbol} {state before after : MachineState Object} {value : Value Object}
  {object : Object}

theorem hidden_subset_frame (form : VariableForm fn) : hidden fn place ⊆ fn.frame place := by
  rintro object ⟨id, symbol, isVariable, isAutomatic, untaken, same⟩
  refine ⟨id, symbol, isVariable, isAutomatic, ?_, same⟩
  cases slot : fn.isNrvo symbol.id with
  | false => rfl
  | true =>
    have taken := form.returnSlot id symbol isVariable slot
    rw [taken] at untaken
    cases untaken

/-! ## Hidden variables stay hidden -/

/-- Nothing carries a hidden variable. -/
structure Confined (fn : MemoryFunction) (place : Nat → Object) (state : MachineState Object) :
    Prop where
  values : ∀ id value object, state.values id = some value → value.object = some object →
    object ∉ hidden fn place
  memory : Disjoint (carriedBy state.memory) (hidden fn place)
  known : Disjoint state.known (hidden fn place)

/-- An operand that carries a hidden variable is its node. -/
theorem Confined.variable_of_hidden (confined : Confined fn place state) (form : VariableForm fn)
    (distinct : DistinctObjects fn place) (evaluates : fn.operand place state input = some value)
    (carries : value.object = some object) (isHidden : object ∈ hidden fn place) :
    ∃ symbol, (fn.gen.nodes input).variableSymbol = some symbol ∧
      symbol.isAutomatic = true ∧ symbol.addressTaken = false ∧ object = place symbol.id := by
  unfold MemoryFunction.operand at evaluates
  cases isVariable : (fn.gen.nodes input).variableSymbol with
  | some symbol =>
    rw [isVariable] at evaluates
    cases evaluates
    cases carries
    rcases isHidden with ⟨other, hiddenSymbol, isOther, isAutomatic, untaken, same⟩
    have sameSymbol := form.symbols input other symbol hiddenSymbol isVariable isOther
      (distinct input other symbol hiddenSymbol isVariable isOther same)
    rw [← sameSymbol] at isAutomatic untaken
    exact ⟨symbol, rfl, isAutomatic, untaken, rfl⟩
  | none =>
    rw [isVariable] at evaluates
    split_ifs at evaluates with isConst
    · cases evaluates
      cases carries
    · exact absurd isHidden (confined.values input value object evaluates carries)

/-- The instructions that take operands as more than a place to read or write. -/
theorem plain_of_access {opcode : IROpcode} (plain : isPlainAccess opcode = true) :
    opcode.memoryAccess = .load ∨ opcode.memoryAccess = .store ∨
      opcode.memoryAccess = .update := by
  cases opcode <;> simp_all [isPlainAccess, IROpcode.isLoadOnly, IROpcode.isStoreOnly,
    IROpcode.isIncDec, IROpcode.memoryAccess]

section

variable (confined : Confined fn place state) (form : VariableForm fn)
  (distinct : DistinctObjects fn place) (listed : fn.Lists id)
  (evaluated : fn.isStanding id = false)

include confined form distinct listed evaluated

/-- An operand carries no hidden variable, unless it is the place that an instruction
reads or writes. -/
theorem Confined.not_hidden (isInput : input ∈ (fn.gen.nodes id).inputs)
    (apart : isPlainAccess (fn.gen.nodes id).opcode = true → input ∈ (fn.gen.nodes id).inputs.drop
      1) (evaluates : fn.operand place state input = some value)
    (carries : value.object = some object) :
    object ∉ hidden fn place := by
  intro isHidden
  rcases confined.variable_of_hidden form distinct evaluates carries isHidden with
    ⟨symbol, isVariable, _, untaken, _⟩
  cases form.marked id listed input isInput symbol isVariable untaken with
  | inl isPhi =>
    unfold MemoryFunction.isStanding at evaluated
    rw [isPhi] at evaluated
    cases evaluated
  | inr plain => exact plain.2 (apart plain.1)

/-- What an instruction that is no plain access can reach is not hidden. -/
theorem Confined.reached_disjoint (special : isPlainAccess (fn.gen.nodes id).opcode = false) :
    Disjoint (fn.reached place state id) (hidden fn place) := by
  have operands : Disjoint (fn.operandObjects place state id) (hidden fn place) := by
    rw [Set.disjoint_left]
    rintro object ⟨input, isInput, value, evaluates, carries⟩
    apply confined.not_hidden form distinct listed evaluated isInput _ evaluates carries
    intro plain
    rw [special] at plain
    cases plain
  unfold MemoryFunction.reached
  rw [Set.disjoint_union_left, Set.disjoint_union_left]
  exact ⟨⟨confined.known, operands⟩, confined.memory⟩

end

/-- An instruction with an access of another kind is no plain access. -/
theorem special_of_access {access : MemoryAccess}
    (isAccess : (fn.gen.nodes id).opcode.memoryAccess = access)
    (special : access ≠ .load ∧ access ≠ .store ∧ access ≠ .update) :
    isPlainAccess (fn.gen.nodes id).opcode = false := by
  cases plain : isPlainAccess (fn.gen.nodes id).opcode with
  | false => rfl
  | true =>
    rcases plain_of_access plain with isLoad | isStore | isUpdate
    · exact absurd (isAccess.symm.trans isLoad) special.1
    · exact absurd (isAccess.symm.trans isStore) special.2.1
    · exact absurd (isAccess.symm.trans isUpdate) special.2.2

section

variable (confined : Confined fn place state) (form : VariableForm fn)
  (distinct : DistinctObjects fn place) (listed : fn.Lists id)
  (evaluated : fn.isStanding id = false)

include confined form distinct listed evaluated

/-- Nothing that an instruction brings is hidden. -/
theorem Confined.brings_disjoint : Disjoint (fn.brings place state id) (hidden fn place) := by
  unfold MemoryFunction.brings
  cases access : (fn.gen.nodes id).opcode.memoryAccess with
  | load | update => exact confined.memory
  | store =>
    rw [Set.disjoint_left]
    rintro object ⟨input, isInput, value, evaluates, carries⟩
    have inDrop : input ∈ (fn.gen.nodes id).inputs.drop 1 := by
      rw [Option.mem_def, ← List.head?_drop] at isInput
      exact List.mem_of_head? isInput
    exact confined.not_hidden form distinct listed evaluated (List.mem_of_mem_drop inDrop)
      (fun _ => inDrop) evaluates carries
  | none | modify | objects | outside | assembly =>
    exact confined.reached_disjoint form distinct listed evaluated
      (special_of_access access (by simp))

/-- Code outside of the function learns of no hidden variable. -/
theorem Confined.learns_disjoint : Disjoint (fn.learns place state id) (hidden fn place) := by
  unfold MemoryFunction.learns
  cases access : (fn.gen.nodes id).opcode.memoryAccess with
  | outside | assembly =>
    exact confined.reached_disjoint form distinct listed evaluated
      (special_of_access access (by simp))
  | none | load | store | update | modify | objects => exact Set.empty_disjoint _

/-- An address computation has as its value what its operands carry. -/
theorem Confined.produces_not_hidden (produces : fn.Produces place state id value)
    (carries : value.object = some object) : object ∉ hidden fn place := by
  have operands : isPlainAccess (fn.gen.nodes id).opcode = false → ∀ input ∈
      (fn.gen.nodes id).inputs, ∀ source, fn.operand place state input = some source →
        source.object = some object → object ∉ hidden fn place := by
    intro special input isInput source evaluates carries
    apply confined.not_hidden form distinct listed evaluated isInput _ evaluates carries
    intro plain
    rw [special] at plain
    cases plain
  unfold MemoryFunction.Produces at produces
  split at produces
  next left right isSum inputs =>
      rcases produces with ⟨first, second, isFirst, isSecond, isValue⟩
      rw [isValue] at carries
      have special : isPlainAccess (fn.gen.nodes id).opcode = false := by rw [isSum]; rfl
      cases Value.add_carries carries with
      | inl byLeft =>
        exact operands special left (by rw [inputs]; simp) first isFirst byLeft
      | inr byRight =>
        exact operands special right (by rw [inputs]; simp) second isSecond byRight
  next source isAddress inputs =>
      have special : isPlainAccess (fn.gen.nodes id).opcode = false := by rw [isAddress]; rfl
      exact operands special source (by rw [inputs]; simp) value produces carries
  next source isCast inputs =>
      have special : isPlainAccess (fn.gen.nodes id).opcode = false := by rw [isCast]; rfl
      split_ifs at produces with narrowed
      · rw [produces] at carries
        cases carries
      · exact operands special source (by rw [inputs]; simp) value produces carries
  next =>
      have brings := confined.brings_disjoint form distinct listed evaluated
      exact Set.disjoint_left.mp brings (produces object carries)

end

variable {values : NodeId → Option (Value Object)} {other : NodeId}

/-- A node has the value assigned or the one that it had. -/
theorem assign_cases {found : Value Object}
    (isFound : fn.assign id values value other = some found) :
    (found = value ∧ (other = id ∨ (fn.gen.nodes id).dest = some other)) ∨
      values other = some found := by
  unfold MemoryFunction.assign at isFound
  rw [Function.update_apply] at isFound
  split_ifs at isFound with isNode
  · exact Or.inl ⟨(Option.some.inj isFound).symm, Or.inl isNode⟩
  · cases destination : (fn.gen.nodes id).dest with
    | none =>
      rw [destination] at isFound
      exact Or.inr isFound
    | some dest =>
      rw [destination] at isFound
      dsimp only at isFound
      rw [Function.update_apply] at isFound
      split_ifs at isFound with isDest
      · exact Or.inl ⟨(Option.some.inj isFound).symm, Or.inr (by rw [isDest])⟩
      · exact Or.inr isFound

/-- Other nodes keep their values. -/
theorem MemoryFunction.assign_of_ne (notSelf : other ≠ id)
    (notDest : (fn.gen.nodes id).dest ≠ some other) :
    fn.assign id values value other = values other := by
  unfold MemoryFunction.assign
  rw [Function.update_of_ne notSelf]
  cases destination : (fn.gen.nodes id).dest with
  | none => rfl
  | some dest =>
    apply Function.update_of_ne
    intro same
    rw [destination, same] at notDest
    exact notDest rfl

/-- Instructions keep hidden variables hidden. -/
theorem Confined.executes (confined : Confined fn place before) (form : VariableForm fn)
    (distinct : DistinctObjects fn place) (listed : fn.Lists id)
    (executes : fn.Executes place id before after) : Confined fn place after := by
  cases executes with
  | standing => exact confined
  | evaluates evaluated produces values changes brings known =>
    have bringsNone := confined.brings_disjoint form distinct listed evaluated
    constructor
    · intro other value object isValue carries
      rw [values] at isValue
      cases assign_cases isValue with
      | inl assigned =>
        rw [assigned.1] at carries
        exact confined.produces_not_hidden form distinct listed evaluated produces carries
      | inr kept => exact confined.values other value object kept carries
    · exact brings.disjoint_carriedBy bringsNone confined.memory
    · apply Set.disjoint_of_subset_left known
      rw [Set.disjoint_union_left]
      exact ⟨confined.known, confined.learns_disjoint form distinct listed evaluated⟩

/-- Nothing carries a hidden variable at the start. -/
theorem confined_of_starts (form : VariableForm fn) {start : Config Object}
    (starts : fn.Starts place start) : Confined fn place start.state := by
  constructor
  · intro id value object isValue carries isHidden
    exact (starts.values id value isValue).2 object carries (hidden_subset_frame form isHidden)
  · exact Set.disjoint_of_subset_right (hidden_subset_frame form) starts.memory
  · exact Set.disjoint_of_subset_right (hidden_subset_frame form) starts.known

/-- Hidden variables stay hidden in every run. -/
theorem confined_of_reaches (form : VariableForm fn) (distinct : DistinctObjects fn place)
    {start config : Config Object} (starts : fn.Starts place start)
    (reaches : fn.Reaches place start config) : Confined fn place config.state :=
  reaches.induct (Confined fn place)
    (fun _ _ _ listed executes confined => confined.executes form distinct listed executes)
    starts (confined_of_starts form starts)

end DaveCC.Backend
