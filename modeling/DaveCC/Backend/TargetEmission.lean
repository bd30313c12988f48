import DaveCC.Backend.TargetRepresentation

/-!
# New target instructions and instructions that enter the list

A new instruction is in no list and no index. Emitting it puts it between two parts of
the list; an instruction that has a neighbour is there already and stays. A symbol is
emitted once and then found by the index.
-/

namespace DaveCC.Backend.TargetGenerator

open DaveCC.Container TargetGenerator LinkedList

variable {target other : TargetGenerator} {order front back : List TargetId}
  {inst pos id : TargetId} {block : BlockId} {symbol : SymbolPointer}

theorem Arranged.next_not_mem (arranged : target.Arranged order) :
    target.nextInstructionId ∉ order :=
  fun listed => not_live_next (arranged.live _ listed)

variable {init : TargetInstruction}

theorem blockOf_targetInitInstruction :
    (target.targetInitInstruction init).blockOf id =
      if id = target.nextInstructionId then init.block else target.blockOf id := by
  rw [blockOf, instructions_targetInitInstruction]
  split_ifs <;> rfl

theorem Arranged.targetInitInstruction (arranged : target.Arranged order)
    (numbered : target.Numbered) (block : init.block = none) :
    (target.targetInitInstruction init).Arranged order := by
  have fresh := arranged.next_not_mem
  have apart : ∀ id ∈ order, id ≠ target.nextInstructionId := by
    rintro id listed rfl
    exact fresh listed
  have kept : ∀ id ∈ order, (target.targetInitInstruction init).blockOf id = target.blockOf id :=
    fun id listed => blockOf_targetInitInstruction.trans (if_neg (apart id listed))
  constructor
  · refine arranged.list.congr rfl rfl rfl ?_ ?_
    · intro id listed
      exact (elementInit_prev id).trans (if_neg (apart id listed))
    · intro id listed
      exact (elementInit_next id).trans (if_neg (apart id listed))
  · intro id listed
    rw [numbered.live_targetInitInstruction]
    exact .inl (arranged.live id listed)
  · intro id outside live
    rw [blockOf_targetInitInstruction]
    by_cases here : id = target.nextInstructionId
    · subst here
      rw [if_pos rfl]
      exact ⟨elementInit_detached, block⟩
    · rw [numbered.live_targetInitInstruction] at live
      obtain ⟨detached, blockless⟩ := arranged.detached id outside (live.resolve_right here)
      rw [if_neg here]
      refine ⟨⟨?_, ?_⟩, blockless⟩
      · exact ((elementInit_prev id).trans (if_neg here)).trans detached.1
      · exact ((elementInit_next id).trans (if_neg here)).trans detached.2
  · exact arranged.symbols
  · obtain ⟨owner, delimits, names⟩ := arranged.blocks
    refine ⟨owner, delimits, ?_⟩
    intro id listed block
    rw [kept id listed]
    exact names id listed block

theorem Numbered.targetInitInstruction (numbered : target.Numbered) :
    (target.targetInitInstruction init).Numbered where
  positive := Nat.succ_pos _
  deleted := fun id listed => Nat.lt_succ_of_lt (numbered.deleted id listed)

theorem Consistent.targetNewInstruction (consistent : target.Consistent) {number : Nat}
    {operand : Fin targetMaxOperands → Option TargetId}
    (operandLive : ∀ index inst, operand index = some inst → target.Live inst) :
    (target.targetNewInstruction (.other number) operand).Consistent := by
  have numbered := consistent.numbered
  obtain ⟨order, arranged⟩ := consistent.arranged
  let init : TargetInstruction := { opcode := .other number, operand := operand }
  have recorded := consistent.defUse.records_targetInitInstruction
    (show init.toTargetUses = {} from rfl)
  have same : (target.targetInitInstruction init).SameShape
      (target.targetNewInstruction (.other number) operand) :=
    recorded.targetUpdateOperandUsers.same
  refine ⟨same.numbered numbered.targetInitInstruction,
    consistent.defUse.targetNewInstruction numbered operandLive, ?_,
    order, same.arranged (arranged.targetInitInstruction numbered rfl)⟩
  apply same.indexed
  refine ⟨consistent.indexed.valid, ?_⟩
  intro symbol id
  have found := consistent.indexed.find_iff symbol id
  rw [numbered.live_targetInitInstruction, instructions_targetInitInstruction]
  by_cases here : id = target.nextInstructionId
  · subst here
    simp only [not_live_next, false_and, iff_false] at found
    simp only [init, if_true]
    constructor
    · intro old
      exact absurd old found
    · rintro ⟨-, other, -⟩
      cases other
  · rw [if_neg here, or_iff_left here]
    exact found

/-- Where an instruction may be put: the place is NULL or in the list. -/
def Place (order : List TargetId) (pos : Option TargetId) : Prop :=
  ∀ listed, pos = some listed → listed ∈ order

theorem inList_of_detached (detached : target.code.Detached inst) : target.inList inst = false := by
  rw [inList, detached.1, detached.2]
  rfl

/-- The instruction has entered the list somewhere, and nothing else has changed. -/
def EntersList (target other : TargetGenerator) (order : List TargetId) (inst : TargetId) : Prop :=
  ∃ front back code, order = front ++ back ∧ Entered target.code code inst front back ∧
    other = { target with code := code }

section

variable (arranged : target.Arranged order) (live : target.Live inst) (fresh : inst ∉ order)

include arranged live fresh

theorem Arranged.targetEmit : EntersList target (target.targetEmit inst) order inst := by
  have detached := (arranged.detached inst fresh live).1
  refine ⟨order, [], target.code.append inst, (List.append_nil order).symm,
    entered_append arranged.list fresh detached, ?_⟩
  simp [TargetGenerator.targetEmit, inList_of_detached detached]

theorem Arranged.targetEmitBefore {pos : Option TargetId} (place : Place order pos) :
    EntersList target (target.targetEmitBefore inst pos) order inst := by
  have detached := (arranged.detached inst fresh live).1
  cases pos with
  | none =>
    have emitted : target.targetEmitBefore inst none = target.targetEmit inst := by
      simp only [TargetGenerator.targetEmitBefore, inList_of_detached detached,
        Bool.false_eq_true, if_false]
    rw [emitted]
    exact arranged.targetEmit live fresh
  | some pos =>
    obtain ⟨before, after, rfl⟩ := List.append_of_mem (place pos rfl)
    refine ⟨before, pos :: after, target.code.insertBefore inst pos, rfl,
      entered_insertBefore arranged.list fresh, ?_⟩
    simp only [TargetGenerator.targetEmitBefore, inList_of_detached detached,
      Bool.false_eq_true, if_false]

theorem Arranged.targetEmitAfter {pos : Option TargetId} (place : Place order pos) :
    EntersList target (target.targetEmitAfter inst pos) order inst := by
  have detached := (arranged.detached inst fresh live).1
  cases pos with
  | none =>
    refine ⟨order, [], target.code.append inst, (List.append_nil order).symm,
      entered_append arranged.list fresh detached, ?_⟩
    simp only [TargetGenerator.targetEmitAfter, inList_of_detached detached,
      Bool.false_eq_true, if_false]
  | some pos =>
    obtain ⟨before, after, rfl⟩ := List.append_of_mem (place pos rfl)
    refine ⟨before ++ [pos], after, target.code.insertAfter inst pos, by simp,
      entered_insertAfter arranged.list fresh, ?_⟩
    simp only [TargetGenerator.targetEmitAfter, inList_of_detached detached,
      Bool.false_eq_true, if_false]

end

/-- An instruction without a block enters the list. -/
theorem Consistent.of_entersList (consistent : target.Consistent)
    (arranged : target.Arranged order) (live : target.Live inst) (fresh : inst ∉ order)
    (enters : EntersList target other order inst) : other.Consistent := by
  obtain ⟨front, back, code, rfl, entered, rfl⟩ := enters
  exact ⟨⟨consistent.numbered.positive, consistent.numbered.deleted⟩,
    consistent.defUse.of_code code, consistent.indexed.of_code code,
    _, arranged.entered_code live fresh entered⟩

theorem Consistent.of_lastConstant (consistent : target.Consistent) (last : Option TargetId) :
    ({ target with lastConstant := last } : TargetGenerator).Consistent := by
  obtain ⟨order, arranged⟩ := consistent.arranged
  exact ⟨⟨consistent.numbered.positive, consistent.numbered.deleted⟩,
    ⟨⟨consistent.defUse.records.mem_users, consistent.defUse.records.agree⟩,
      consistent.defUse.retired⟩,
    ⟨consistent.indexed.valid, consistent.indexed.find_iff⟩, order,
    ⟨arranged.list, arranged.live, arranged.detached, arranged.symbols, arranged.blocks⟩⟩

/-- What may be emitted: a live instruction that is not in the list, or has a neighbour
there. -/
def Emittable (target : TargetGenerator) (order : List TargetId) (inst : TargetId) : Prop :=
  target.Live inst ∧ (inst ∈ order → target.inList inst = true)

theorem targetEmit_of_inList (listed : target.inList inst = true) :
    target.targetEmit inst = target := by
  rw [targetEmit, if_pos listed]

theorem targetEmitBefore_of_inList (listed : target.inList inst = true) {pos : Option TargetId} :
    target.targetEmitBefore inst pos = target := by
  simp [targetEmitBefore, listed]

theorem targetEmitAfter_of_inList (listed : target.inList inst = true) {pos : Option TargetId} :
    target.targetEmitAfter inst pos = target := by
  simp [targetEmitAfter, listed]

section

variable (consistent : target.Consistent) (arranged : target.Arranged order)
  (emittable : target.Emittable order inst)

include consistent arranged emittable

theorem Consistent.targetEmit : (target.targetEmit inst).Consistent := by
  by_cases listed : inst ∈ order
  · rw [targetEmit_of_inList (emittable.2 listed)]
    exact consistent
  · exact consistent.of_entersList arranged emittable.1 listed
      (arranged.targetEmit emittable.1 listed)

theorem Consistent.targetEmitBefore {pos : Option TargetId} (place : Place order pos) :
    (target.targetEmitBefore inst pos).Consistent := by
  by_cases listed : inst ∈ order
  · rw [targetEmitBefore_of_inList (emittable.2 listed)]
    exact consistent
  · exact consistent.of_entersList arranged emittable.1 listed
      (arranged.targetEmitBefore emittable.1 listed place)

theorem Consistent.targetEmitAfter {pos : Option TargetId} (place : Place order pos) :
    (target.targetEmitAfter inst pos).Consistent := by
  by_cases listed : inst ∈ order
  · rw [targetEmitAfter_of_inList (emittable.2 listed)]
    exact consistent
  · exact consistent.of_entersList arranged emittable.1 listed
      (arranged.targetEmitAfter emittable.1 listed place)

theorem Consistent.targetEmitConstant (place : Place order target.lastConstant) :
    (target.targetEmitConstant inst).Consistent :=
  (consistent.targetEmitAfter arranged emittable place).of_lastConstant (some inst)

end

/-! ## Symbols -/

/-- A symbol has entered the list and the run of symbols, and nothing else has changed. -/
structure EntersSymbols (target other : TargetGenerator) (order : List TargetId)
    (inst : TargetId) : Prop where
  arranged : ∃ entered, other.Arranged entered
  instructions : other.instructions = target.instructions
  nextId : other.nextInstructionId = target.nextInstructionId
  deleted : other.deletedInstructions = target.deletedInstructions
  symbolIndex : other.symbolIndex = target.symbolIndex

theorem Arranged.targetEmitSymbol (arranged : target.Arranged order) (live : target.Live inst)
    (fresh : inst ∉ order) (place : target.lastSymbol = none → Place order target.lastConstant) :
    EntersSymbols target (target.targetEmitSymbol inst) order inst := by
  have nodup := arranged.list.nodup
  have blockless := (arranged.detached inst fresh live).2
  cases last : target.lastSymbol with
  | none =>
    obtain ⟨front, back, code, rfl, entered, emitted⟩ :=
      arranged.targetEmitAfter live fresh (place last)
    have emittedSymbol : target.targetEmitSymbol inst =
        { target with code := code, firstSymbol := some inst, lastSymbol := some inst } := by
      simp only [TargetGenerator.targetEmitSymbol, last, emitted]
    rw [emittedSymbol]
    refine ⟨⟨front ++ inst :: back, ?_⟩, rfl, rfl, rfl, rfl⟩
    refine arranged.entered live entered (fun _ => Iff.rfl) (fun _ _ => rfl) ?_ ?_
    · have run : CodeSpan.Within ⟨some inst, some inst⟩ (front ++ [inst] ++ back) :=
        .of_run rfl rfl
      rw [List.append_assoc, List.singleton_append] at run
      exact run
    · exact arranged.blocks.entered nodup fresh blockless rfl fun _ => rfl
  | some lastSymbol =>
    obtain ⟨owner, before, run, after, rfl, -, codeEq, endEq⟩ := arranged.symbols
    have isLast : run.getLast? = some lastSymbol := endEq.symm.trans last
    obtain ⟨rest, rfl⟩ := List.getLast?_eq_some_iff.mp isLast
    have middle : before ++ (rest ++ [lastSymbol]) ++ after =
        before ++ rest ++ lastSymbol :: after := by simp
    have end_ : before ++ (rest ++ [lastSymbol]) ++ after =
        before ++ rest ++ [lastSymbol] ++ after := by simp
    have represents := arranged.list
    have detached := (arranged.detached inst fresh live).1
    have entered : Entered target.code (target.code.insertAfter inst lastSymbol) inst
        (before ++ rest ++ [lastSymbol]) after := by
      rw [middle] at represents fresh
      exact entered_insertAfter represents fresh
    have emittedSymbol : target.targetEmitSymbol inst =
        { target with
          code := target.code.insertAfter inst lastSymbol
          lastSymbol := some inst } := by
      simp [TargetGenerator.targetEmitSymbol, last, TargetGenerator.targetEmitAfter, inList_of_detached detached]
    rw [end_] at arranged nodup fresh
    rw [emittedSymbol]
    refine ⟨⟨before ++ rest ++ [lastSymbol] ++ inst :: after, ?_⟩, rfl, rfl, rfl, rfl⟩
    refine arranged.entered live entered (fun _ => Iff.rfl) (fun _ _ => rfl) ?_ ?_
    · have run : CodeSpan.Within ⟨target.firstSymbol, some inst⟩
          (before ++ (rest ++ [lastSymbol, inst]) ++ after) := by
        apply CodeSpan.Within.of_run
        · have first : target.firstSymbol = (rest ++ [lastSymbol]).head? := codeEq
          change target.firstSymbol = _
          rw [first]
          cases rest <;> rfl
        · simp
      have shape : before ++ (rest ++ [lastSymbol, inst]) ++ after =
          before ++ rest ++ [lastSymbol] ++ inst :: after := by simp
      rw [shape] at run
      exact run
    · exact arranged.blocks.entered nodup fresh blockless rfl fun _ => rfl

theorem DefUse.of_fields (defUse : target.DefUse)
    (uses : ∀ id, (other.instructions id).toTargetUses = (target.instructions id).toTargetUses)
    (operands : ∀ id index, other.operand id index = target.operand id index)
    (live : ∀ id, other.Live id ↔ target.Live id) : other.DefUse where
  records := by
    apply (defUse.records.of_sameUses uses).congr
    intro user inst
    rw [live, hasOperand_congr operands]
  retired := by
    intro inst dead
    rw [users, uses]
    exact defUse.retired inst fun alive => dead ((live inst).mpr alive)

/-- The index after a new symbol has been inserted. -/
theorem Indexed.inserted (indexed : target.Indexed)
    (absent : target.symbolIndex.find hashTargetSymbol symbol = none) (valid : other.symbolIndex =
      target.symbolIndex.insert hashTargetSymbol symbol target.nextInstructionId)
    (live : ∀ id, other.Live id ↔ target.Live id ∨ id = target.nextInstructionId)
    (instructions : ∀ id, other.instructions id = if id = target.nextInstructionId then
      { opcode := .symbol, symbol := some symbol } else target.instructions id) :
    other.Indexed := by
  obtain ⟨inserted, holds⟩ := indexed.valid.insert symbol target.nextInstructionId
  have insertedValid : (target.symbolIndex.insert hashTargetSymbol symbol
      target.nextInstructionId).Valid hashTargetSymbol := .inr inserted
  refine ⟨valid ▸ insertedValid, ?_⟩
  intro asked id
  rw [valid, insertedValid.find_eq_some_iff, holds, ← indexed.valid.find_eq_some_iff, live,
    instructions]
  by_cases here : id = target.nextInstructionId
  · have old : ¬target.symbolIndex.find hashTargetSymbol asked = some id := by
      rw [indexed.find_iff, here]
      exact fun found => not_live_next found.1
    simp [here] at old ⊢
    simp [old, eq_comm]
  · rw [indexed.find_iff]
    simp only [here, and_false, false_or, or_false, if_false]
    constructor
    · exact And.right
    · intro found
      refine ⟨?_, found⟩
      rintro rfl
      rw [← indexed.find_iff, absent] at found
      cases found

/-- A symbol that is asked for is in the list and is found from then on. -/
theorem Consistent.targetGetSymbol (consistent : target.Consistent)
    (arranged : target.Arranged order)
    (place : target.lastSymbol = none → Place order target.lastConstant) :
    (target.targetGetSymbol symbol).Consistent := by
  have numbered := consistent.numbered
  cases found : target.symbolIndex.find hashTargetSymbol symbol with
  | some old =>
    have same : target.targetGetSymbol symbol = target := by
      simp only [TargetGenerator.targetGetSymbol, found]
    rw [same]
    exact consistent
  | none =>
    let init : TargetInstruction := { opcode := .symbol, symbol := some symbol }
    have next : (target.targetInitInstruction init).Live target.nextInstructionId :=
      numbered.live_targetInitInstruction.mpr (.inr rfl)
    have initArranged := arranged.targetInitInstruction numbered (show init.block = none from rfl)
    have emitted := initArranged.targetEmitSymbol next arranged.next_not_mem place
    have defUse := consistent.defUse.targetInitInstruction numbered
      (show init.toTargetUses = {} from rfl) fun _ => rfl
    have shape : target.targetGetSymbol symbol =
        { (target.targetInitInstruction init).targetEmitSymbol target.nextInstructionId with
          symbolIndex := target.symbolIndex.insert hashTargetSymbol symbol
            target.nextInstructionId } := by
      simp only [TargetGenerator.targetGetSymbol, found]
      congr 2
      exact emitted.symbolIndex
    rw [shape]
    generalize (target.targetInitInstruction init).targetEmitSymbol
      target.nextInstructionId = other at emitted
    obtain ⟨entered, otherArranged⟩ := emitted.arranged
    have sameLive (id : TargetId) : other.Live id ↔ (target.targetInitInstruction init).Live id := by
      rw [Live, Live, emitted.nextId, emitted.deleted]
    have initNumbered : (target.targetInitInstruction init).Numbered :=
      numbered.targetInitInstruction
    refine ⟨⟨?_, ?_⟩, ?_, ?_, entered, ⟨otherArranged.list, otherArranged.live,
      otherArranged.detached, otherArranged.symbols, otherArranged.blocks⟩⟩
    · exact emitted.nextId ▸ initNumbered.positive
    · intro id deleted
      have older := initNumbered.deleted id (emitted.deleted ▸ deleted)
      exact emitted.nextId ▸ older
    · refine defUse.of_fields ?_ ?_ sameLive
      · intro id
        exact congrArg (fun all => (all id).toTargetUses) emitted.instructions
      · intro id index
        exact congrArg (fun all => (all id).operand index) emitted.instructions
    · apply consistent.indexed.inserted found rfl
      · intro id
        exact (sameLive id).trans numbered.live_targetInitInstruction
      · intro id
        exact (congrFun emitted.instructions id).trans instructions_targetInitInstruction

/-- Only the block of an instruction has it for an end. -/
theorem Blocked.own (blocked : target.Blocked order) (listed : pos ∈ order)
    (owned : target.blockOf pos = some block) {own : BlockId}
    (isEnd : (target.spans own).code = some pos ∨ (target.spans own).endCode = some pos) :
    own = block := by
  obtain ⟨owner, delimits, names⟩ := blocked
  have posOwner := names pos listed block owned
  rcases isEnd with code | endCode
  · have other := ((delimits own).mem_of_code code).2
    exact Option.some.inj (other.symm.trans posOwner)
  · have other := ((delimits own).mem_of_endCode endCode).2
    exact Option.some.inj (other.symm.trans posOwner)

/-- An instruction has joined a block, and the ends of the block are accounted for. -/
structure JoinsBlock (target other : TargetGenerator) (block : BlockId) (inst : TargetId) : Prop
    where
  uses : ∀ id, (other.instructions id).toTargetUses = (target.instructions id).toTargetUses
  operands : ∀ id index, other.operand id index = target.operand id index
  opcode : ∀ id, (other.instructions id).opcode = (target.instructions id).opcode
  symbol : ∀ id, (other.instructions id).symbol = (target.instructions id).symbol
  blockOf : ∀ id, id ≠ inst → other.blockOf id = target.blockOf id
  joined : other.blockOf inst = some block
  nextId : other.nextInstructionId = target.nextInstructionId
  deleted : other.deletedInstructions = target.deletedInstructions
  symbolIndex : other.symbolIndex = target.symbolIndex
  symbolSpan : other.symbolSpan = target.symbolSpan

theorem joinsBlock_setBlock (code : LinkedList TargetId) (spans : BlockId → CodeSpan) :
    JoinsBlock target
      (({ target with code := code, spans := spans } : TargetGenerator).setBlock inst block)
      block inst := by
  constructor
  all_goals first | rfl | skip
  · intro id
    rw [setBlock, instructions_modify]
    split_ifs with here
    · rw [here]
    · rfl
  · intro id index
    rw [operand, setBlock, instructions_modify]
    split_ifs with here
    · rw [here]
      rfl
    · rfl
  · intro id
    rw [setBlock, instructions_modify]
    split_ifs with here
    · rw [here]
    · rfl
  · intro id
    rw [setBlock, instructions_modify]
    split_ifs with here
    · rw [here]
    · rfl
  · intro id apart
    rw [TargetGenerator.blockOf, setBlock, instructions_modify, if_neg apart]
    rfl
  · rw [TargetGenerator.blockOf, setBlock, instructions_modify, if_pos rfl]

theorem JoinsBlock.live_iff (joins : JoinsBlock target other block inst) :
    other.Live id ↔ target.Live id := by
  rw [Live, Live, joins.nextId, joins.deleted]

/-- An instruction that joins a block keeps the invariant. -/
theorem Consistent.of_joinsBlock (consistent : target.Consistent)
    (joins : JoinsBlock target other block inst) (arranged : ∃ order, other.Arranged order) :
    other.Consistent := by
  refine ⟨⟨?_, ?_⟩, consistent.defUse.of_fields joins.uses joins.operands fun _ => joins.live_iff,
    ⟨?_, ?_⟩, arranged⟩
  · exact joins.nextId ▸ consistent.numbered.positive
  · intro id deleted
    have older := consistent.numbered.deleted id (joins.deleted ▸ deleted)
    exact joins.nextId ▸ older
  · exact joins.symbolIndex ▸ consistent.indexed.valid
  · intro symbol id
    rw [joins.symbolIndex, joins.live_iff, joins.opcode, joins.symbol]
    exact consistent.indexed.find_iff symbol id

/-- Moving the ends of one block is moving those of every block that would move. -/
theorem spans_update (target : TargetGenerator) (block : BlockId) (extend : CodeSpan → CodeSpan)
    (kept : ∀ own, own ≠ block → extend (target.spans own) = target.spans own) (own : BlockId) :
    Function.update target.spans block (extend (target.spans block)) own =
      extend (target.spans own) := by
  by_cases same : own = block
  · rw [same, Function.update_self]
  · rw [Function.update_of_ne same, kept own same]

/-- An instruction enters the list beside one of a block and joins the block, whose ends
are extended to it. -/
theorem Consistent.joined (consistent : target.Consistent)
    (arranged : target.Arranged (front ++ back)) (live : target.Live inst)
    (fresh : inst ∉ front ++ back) (listed : pos ∈ front ++ back)
    (owned : target.blockOf pos = some block) {code : LinkedList TargetId}
    (entered : Entered target.code code inst front back) (extend : CodeSpan → CodeSpan)
    (kept : ∀ span : CodeSpan, span.code ≠ some pos → span.endCode ≠ some pos → extend span = span)
    (delimits : ∀ (span : CodeSpan) (owner newOwner : NodeId → Option BlockId) (own :
      BlockId), span.Delimits (front ++ back) owner own → (∀ id ∈ front ++ back,
      newOwner id = owner id) → newOwner inst = owner pos → (extend span).Delimits (front ++ inst
      :: back) newOwner own) :
    (({ target with
      code := code
      spans := Function.update target.spans block (extend (target.spans block)) } :
        TargetGenerator).setBlock inst block).Consistent := by
  have joins : JoinsBlock target (({ target with
      code := code
      spans := Function.update target.spans block (extend (target.spans block)) } :
        TargetGenerator).setBlock inst block) block inst := joinsBlock_setBlock _ _
  have spans := spans_update target block extend (by
    intro own apart
    apply kept
    · exact fun code => apart (arranged.blocks.own listed owned (.inl code))
    · exact fun endCode => apart (arranged.blocks.own listed owned (.inr endCode)))
  refine consistent.of_joinsBlock joins ⟨front ++ inst :: back, ?_⟩
  refine arranged.entered live entered (fun _ => joins.live_iff) joins.blockOf ?_ ?_
  · rw [joins.symbolSpan]
    exact arranged.symbols.insertApart arranged.list.nodup fresh
  · obtain ⟨owner, old, names⟩ := arranged.blocks
    refine ⟨Function.update owner inst (some block), ?_, ?_⟩
    · intro own
      change (Function.update target.spans block _ own).Delimits _ _ _
      rw [spans]
      apply delimits _ owner _ own (old own)
      · intro id member
        apply Function.update_of_ne
        rintro rfl
        exact fresh member
      · rw [Function.update_self, names pos listed block owned]
    · intro id member named nameEq
      by_cases here : id = inst
      · rw [here, joins.joined] at nameEq
        rw [here, Function.update_self]
        exact nameEq
      · rw [joins.blockOf id here] at nameEq
        rw [Function.update_of_ne here]
        exact names id (by simpa [here] using member) named nameEq

section

variable (consistent : target.Consistent) (arranged : target.Arranged order)
  (live : target.Live inst) (fresh : inst ∉ order) (listed : pos ∈ order)
  (owned : target.blockOf pos = some block)

include consistent arranged live fresh listed owned

theorem Consistent.targetBasicBlockEmitBefore :
    (target.targetBasicBlockEmitBefore block inst pos).Consistent := by
  obtain ⟨front, back, rfl⟩ := List.append_of_mem listed
  have detached := (arranged.detached inst fresh live).1
  have notInList : (target.setSpan block ((target.spans block).extendBefore inst pos)).inList inst =
      false := inList_of_detached detached
  have joined := consistent.joined arranged live fresh listed owned
    (entered_insertBefore arranged.list fresh) (fun span => span.extendBefore inst pos)
    (by
      intro span codeNe _
      rw [CodeSpan.extendBefore, if_neg codeNe])
    fun span owner newOwner own delimits =>
      delimits.insertBefore arranged.list.nodup fresh
  simp only [TargetGenerator.targetBasicBlockEmitBefore, TargetGenerator.targetEmitBefore,
    notInList, Bool.false_eq_true, if_false]
  exact joined

theorem Consistent.targetBasicBlockEmitAfter :
    (target.targetBasicBlockEmitAfter block inst pos).Consistent := by
  obtain ⟨front, back, rfl⟩ := List.append_of_mem listed
  have detached := (arranged.detached inst fresh live).1
  have notInList : (target.setSpan block ((target.spans block).extendAfter inst pos)).inList inst =
      false := inList_of_detached detached
  have entered := entered_insertAfter arranged.list fresh
  have nodup := arranged.list.nodup
  have shape : front ++ pos :: back = front ++ [pos] ++ back := by simp
  have joined := consistent.joined (shape ▸ arranged) live (shape ▸ fresh) (shape ▸ listed) owned
    entered (fun span => span.extendAfter inst pos)
    (by
      intro span _ endNe
      rw [CodeSpan.extendAfter, if_neg endNe])
    (by
      intro span owner newOwner own delimits same joinsPos
      rw [← shape] at delimits same
      have inserted := delimits.insertAfter nodup fresh same joinsPos
      simpa using inserted)
  simp only [TargetGenerator.targetBasicBlockEmitAfter, TargetGenerator.targetEmitAfter,
    notInList, Bool.false_eq_true, if_false]
  exact joined

end

end DaveCC.Backend.TargetGenerator
