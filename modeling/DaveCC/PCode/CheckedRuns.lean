import DaveCC.PCode.CheckedMemory
import DaveCC.PCode.StepAgreement

/-!
# Runs with checked memory

Regions are registered, lifetimes end and the machine steps, in any order. Inside a step registers
change and memory is accessed; every access of such a run is confined unless it is misdirected.
-/

namespace DaveCC.PCode

open Relation

namespace PCodeVM

/-- `RegisterMemoryRegion`. -/
def registerRegion (memory size : Word) (writable : Bool) (states : Option (List (BitVec 8)))
    (vm : PCodeVM) : PCodeVM :=
  if memory = 0 ∨ size = 0 then vm
  else { vm with memoryRegions := vm.memoryRegions ++ [⟨memory, size, writable, states⟩] }

/-- `PCodeVMRegisterMemoryRegion`. -/
def registerMemoryRegion (memory size : Word) (writable : Bool) (vm : PCodeVM) : PCodeVM :=
  vm.registerRegion memory size writable none

/-- `PCodeVMRegisterStatefulMemoryRegion`. -/
def registerStatefulMemoryRegion (memory size : Word) (writable : Bool) (initialState : BitVec 8)
    (vm : PCodeVM) : PCodeVM :=
  vm.registerRegion memory size writable (some (List.replicate size.toNat initialState))

/-- `PCodeVMSetMemoryState`. -/
def setMemoryState (address size : Word) (state : BitVec 8) (vm : PCodeVM) : PCodeVM :=
  if size = 0 then vm
  else
    match vm.memoryRegions.zipIdx.reverse.find? fun (region, _) => region.contains address size false with
    | none => vm
    | some (region, index) =>
      let states := region.states.getD (List.replicate region.size.toNat validState)
      let filled := fillStates states (address - region.start).toNat size.toNat state
      let regions := vm.memoryRegions.set index { region with states := some filled }
      { vm with
        memoryRegions := regions
        stackEndedLow :=
          if region.start = vm.stack ∧ address < vm.stackEndedLow then address
          else vm.stackEndedLow }

/-- `PCodeVMEndLifetime`. -/
def endLifetime (address size : Word) (vm : PCodeVM) : PCodeVM :=
  vm.setMemoryState address size endedLifetimeState

/-- What happens to a machine between the accesses of a step, and what an escape handler may do. -/
inductive Move : PCodeVM → PCodeVM → Prop where
  | registers {vm : PCodeVM} (machine : Machine) (memory : machine.memory = vm.machine.memory)
      (status : PCodeVMStatus) (steps : Int) :
      Move vm { vm with machine := machine, status := status, steps := steps }
  | access {vm : PCodeVM} (address size : Word) (write : Bool) :
      Move vm (vm.accessPointer address size write).2
  /-- A store changes bytes of an access that succeeds. -/
  | store {vm : PCodeVM} {address size pointer : Word} {memory : Memory}
      (points : (vm.accessPointer address size true).1 = some pointer)
      (frame : ∀ place, (∀ byte < size.toNat, place ≠ pointer + BitVec.ofNat 64 byte) →
        memory place = (vm.accessPointer address size true).2.machine.memory place) :
      Move vm
        { (vm.accessPointer address size true).2 with
          machine := (vm.accessPointer address size true).2.machine.setMemory memory }
  | forget {vm : PCodeVM} : Move vm vm.forgetEndedStackLifetimes
  | register {vm : PCodeVM} (memory size : Word) (writable : Bool) :
      Move vm (vm.registerMemoryRegion memory size writable)
  | registerStateful {vm : PCodeVM} (memory size : Word) (writable : Bool)
      (initialState : BitVec 8) :
      Move vm (vm.registerStatefulMemoryRegion memory size writable initialState)
  | setMemoryState {vm : PCodeVM} (address size : Word) (state : BitVec 8) :
      Move vm (vm.setMemoryState address size state)

/-- One call from outside. -/
inductive Act (floats : HostFloats) (escape : PCodeVMEscapeHandler) : PCodeVM → PCodeVM → Prop where
  | register {vm : PCodeVM} (memory size : Word) (writable : Bool) :
      Act floats escape vm (vm.registerMemoryRegion memory size writable)
  | registerStateful {vm : PCodeVM} (memory size : Word) (writable : Bool)
      (initialState : BitVec 8) :
      Act floats escape vm (vm.registerStatefulMemoryRegion memory size writable initialState)
  | endLifetime {vm : PCodeVM} (address size : Word) :
      Act floats escape vm (vm.endLifetime address size)
  | step {vm vm' : PCodeVM} (steps : vm.step floats escape = some vm') : Act floats escape vm vm'

end PCodeVM

/-- An escape handler that touches the machine only through its functions. -/
def PCodeVMEscapeHandler.Honest (escape : PCodeVMEscapeHandler) : Prop :=
  ∀ code vm, ReflTransGen PCodeVM.Move vm (escape.handle code vm).2

namespace PCodeVM

/-- A machine with checked memory before any region is registered. -/
structure Starts (vm : PCodeVM) : Prop where
  checkedMemory : vm.checkedMemory = true
  noRegions : vm.memoryRegions = []

section Moves

variable {vm vm' : PCodeVM}

theorem length_fillStates (states : List (BitVec 8)) (offset size : Nat) (state : BitVec 8) :
    (fillStates states offset size state).length = states.length := by
  rw [fillStates, List.length_append, List.length_append, List.length_take, List.length_replicate,
    List.length_drop]
  omega

section

variable (checked : vm.Checked)

include checked

/-- Regions with other states. -/
theorem Checked.ofRegions (sameFlag : vm'.checkedMemory = vm.checkedMemory) (regions : ∀ region ∈
      vm'.memoryRegions, region ∈ vm.memoryRegions ∨ ∃ old ∈ vm.memoryRegions, region.start =
      old.start ∧ ∀ states, region.states = some states → states.length = old.size.toNat ∧
      region.size = old.size) : vm'.Checked := by
  constructor
  · exact sameFlag.trans checked.checkedMemory
  · intro region isIn
    cases regions region isIn with
    | inl same => exact checked.start_ne region same
    | inr changed =>
      have ⟨old, isOld, start, _⟩ := changed
      rw [start]
      exact checked.start_ne old isOld
  · intro region isIn states hasStates
    cases regions region isIn with
    | inl same => exact checked.states region same states hasStates
    | inr changed =>
      have ⟨old, isOld, _, lengths⟩ := changed
      have ⟨length, size⟩ := lengths states hasStates
      rw [size]
      exact length

/-- One region gets other states. -/
theorem Checked.setStates {index : Nat} {region : PCodeVMMemoryRegion} {states : List (BitVec 8)}
    (isAt : vm.memoryRegions[index]? = some region) (length : states.length = region.size.toNat)
      (regions : vm'.memoryRegions = vm.memoryRegions.set index { region with states := some states
      }) (sameFlag : vm'.checkedMemory = vm.checkedMemory) : vm'.Checked := by
  apply checked.ofRegions sameFlag
  intro other isIn
  rw [regions] at isIn
  cases List.mem_or_eq_of_mem_set isIn with
  | inl same => exact .inl same
  | inr changed =>
    refine .inr ⟨region, List.mem_of_getElem? isAt, by rw [changed], ?_⟩
    intro states' hasStates
    rw [changed] at hasStates
    cases hasStates
    exact ⟨length, by rw [changed]⟩

theorem Checked.sameRegions (sameRegions : vm'.memoryRegions = vm.memoryRegions)
    (sameFlag : vm'.checkedMemory = vm.checkedMemory) : vm'.Checked := by
  apply checked.ofRegions sameFlag
  intro region isIn
  exact .inl (sameRegions ▸ isIn)

theorem Checked.accessStates (address size : Word) (write : Bool) :
    (vm.accessStates address size write).2.Checked := by
  rw [PCodeVM.accessStates]
  split
  · exact checked
  · next index region states found =>
      obtain ⟨isAt, hasStates, _⟩ := statefulRegion_eq_some found
      dsimp only
      split
      · refine checked.setStates isAt ?_ rfl rfl
        rw [length_fillStates]
        exact checked.states region (List.mem_of_getElem? isAt) states hasStates
      · split
        · exact checked
        · exact checked.sameRegions rfl rfl

theorem Checked.accessPointer (address size : Word) (write : Bool) :
    (vm.accessPointer address size write).2.Checked := by
  rw [accessPointer_eq]
  split
  · exact checked.accessStates address size write
  · have refused : (vm.refuse write).Checked := checked.sameRegions rfl rfl
    cases vm.normalizeCheckedAddress address size write with
    | none => exact refused
    | some normalized =>
      dsimp only
      split
      · have resumed : ({ vm with status := .running } : PCodeVM).Checked :=
          checked.sameRegions rfl rfl
        exact resumed.accessStates normalized size write
      · exact refused

theorem Checked.forget : vm.forgetEndedStackLifetimes.Checked := by
  rw [forgetEndedStackLifetimes]
  dsimp only
  split
  · exact checked
  · split
    · exact checked.sameRegions rfl rfl
    · next index _ =>
        refine checked.ofRegions ?_ ?_
        · rfl
        intro region isIn
        obtain ⟨place, isAt⟩ := List.mem_iff_getElem?.mp isIn
        rw [List.getElem?_modify] at isAt
        obtain ⟨old, isOld, changed⟩ := Option.map_eq_some_iff.mp isAt
        have oldIn := List.mem_of_getElem? isOld
        generalize (if vm.iregs spReg < old.start + old.size then vm.iregs spReg
          else old.start + old.size) = limit at changed
        split at changed
        · split at changed
          · refine .inr ⟨old, oldIn, by rw [← changed], ?_⟩
            intro states hasStates
            rw [← changed] at hasStates ⊢
            obtain ⟨states', hasStates', filled⟩ := Option.map_eq_some_iff.mp hasStates
            rw [← filled, length_fillStates]
            exact ⟨checked.states old oldIn states' hasStates', rfl⟩
          · exact .inl (changed ▸ oldIn)
        · exact .inl (changed ▸ oldIn)

theorem Checked.registerRegion (memory size : Word) (writable : Bool)
    (states : Option (List (BitVec 8)))
    (lengths : ∀ list, states = some list → list.length = size.toNat) :
    (vm.registerRegion memory size writable states).Checked := by
  rw [PCodeVM.registerRegion]
  split
  · exact checked
  · next valid =>
      constructor
      · exact checked.checkedMemory
      · intro region isIn
        cases List.mem_append.mp isIn with
        | inl old => exact checked.start_ne region old
        | inr new =>
          rw [List.mem_singleton.mp new]
          exact fun isZero => valid (.inl isZero)
      · intro region isIn list hasStates
        cases List.mem_append.mp isIn with
        | inl old => exact checked.states region old list hasStates
        | inr new =>
          rw [List.mem_singleton.mp new] at hasStates ⊢
          exact lengths list hasStates

theorem Checked.registerMemoryRegion (memory size : Word) (writable : Bool) :
    (vm.registerMemoryRegion memory size writable).Checked :=
  checked.registerRegion memory size writable none nofun

theorem Checked.registerStatefulMemoryRegion (memory size : Word) (writable : Bool)
    (initialState : BitVec 8) :
    (vm.registerStatefulMemoryRegion memory size writable initialState).Checked := by
  apply checked.registerRegion memory size writable
  intro list isList
  cases isList
  exact List.length_replicate

theorem Checked.setMemoryState (address size : Word) (state : BitVec 8) :
    (vm.setMemoryState address size state).Checked := by
  rw [PCodeVM.setMemoryState]
  split
  · exact checked
  · split
    · exact checked
    · next region index found =>
        have isAt := List.mem_zipIdx_iff_getElem?.mp
          (List.mem_reverse.mp (List.mem_of_find?_eq_some found))
        refine checked.setStates isAt ?_ rfl rfl
        rw [length_fillStates]
        cases hasStates : region.states with
        | none => exact List.length_replicate
        | some states =>
          exact checked.states region (List.mem_of_getElem? isAt) states hasStates

end

theorem Move.checked (move : Move vm vm') (checked : vm.Checked) : vm'.Checked := by
  cases move with
  | registers => exact checked.sameRegions rfl rfl
  | access address size write => exact checked.accessPointer address size write
  | store => exact (checked.accessPointer _ _ _).sameRegions rfl rfl
  | forget => exact checked.forget
  | register memory size writable => exact checked.registerMemoryRegion memory size writable
  | registerStateful memory size writable initialState =>
    exact checked.registerStatefulMemoryRegion memory size writable initialState
  | setMemoryState address size state => exact checked.setMemoryState address size state

theorem checked_of_moves (moves : ReflTransGen Move vm vm') (checked : vm.Checked) : vm'.Checked := by
  induction moves with
  | refl => exact checked
  | tail _ move ih => exact move.checked ih

end Moves

/-! ## A step is made of moves -/

section Steps

variable {floats : HostFloats} {escape : PCodeVMEscapeHandler} {vm next : PCodeVM}
  {address pc : Word} {inst : BitVec 32}

/-- Moves lead from a machine to a result, if there is one. -/
def Leads (vm : PCodeVM) (result : Option PCodeVM) : Prop :=
  ∀ vm', result = some vm' → ReflTransGen Move vm vm'

theorem leads_some (moves : ReflTransGen Move vm next) : vm.Leads (some next) := by
  intro vm' isResult
  cases isResult
  exact moves

/-- Registers change. -/
theorem moves_registers
    (same : next = { vm with machine := next.machine, status := next.status, steps := next.steps })
    (memory : next.machine.memory = vm.machine.memory) : ReflTransGen Move vm next := by
  rw [same]
  exact .single (.registers next.machine memory next.status next.steps)

theorem leads_registers
    (same : next = { vm with machine := next.machine, status := next.status, steps := next.steps })
    (memory : next.machine.memory = vm.machine.memory) : vm.Leads (some next) :=
  leads_some (moves_registers same memory)

theorem Leads.after {result : Option PCodeVM} (leads : next.Leads result)
    (moves : ReflTransGen Move vm next) : vm.Leads result :=
  fun vm' isResult => moves.trans (leads vm' isResult)

theorem leads_hostOp (op : Word → Word → Option Word) : vm.Leads (vm.hostOp inst op) := by
  intro vm' isResult
  have ⟨value, _, changed⟩ := Option.map_eq_some_iff.mp isResult
  rw [← changed]
  exact moves_registers rfl rfl

theorem leads_toInt (value : Option Word) (register : Register) :
    vm.Leads (value.map fun value => vm.setInt register value) := by
  intro vm' isResult
  have ⟨value, _, changed⟩ := Option.map_eq_some_iff.mp isResult
  rw [← changed]
  exact moves_registers rfl rfl

theorem leads_stopWith (honest : escape.Honest) (code : BitVec 32) :
    vm.Leads (vm.stopWith escape code) :=
  leads_some ((honest code vm).trans (moves_registers rfl rfl))

theorem leads_access (size : Word) (write : Bool) {goOn : Word → PCodeVM → Option PCodeVM}
    (leads : ∀ pointer, (vm.accessPointer address size write).1 = some pointer →
      (vm.accessPointer address size write).2.Leads (goOn pointer (vm.accessPointer address size
      write).2)) :
    vm.Leads (vm.access address size write goOn) := by
  have moves : ReflTransGen Move vm (vm.accessPointer address size write).2 :=
    .single (.access address size write)
  rw [access]
  cases accessed : vm.accessPointer address size write with
  | mk found after =>
    rw [accessed] at leads moves
    cases found with
    | none => exact leads_some moves
    | some pointer =>
      dsimp only
      split
      · exact leads_some moves
      · exact (leads pointer rfl).after moves

def ReadLeads {width : Nat}
    (read : Word → (BitVec width → PCodeVM → Option PCodeVM) → PCodeVM → Option PCodeVM) : Prop :=
  ∀ vm address goOn, (∀ value after, PCodeVM.Leads after (goOn value after)) →
    PCodeVM.Leads vm (read address goOn vm)

theorem readLeads_U8 : ReadLeads readU8 :=
  fun _ _ _ leads => leads_access 1 false fun _ _ => leads _ _

theorem readLeads_U16 : ReadLeads readU16 :=
  fun _ _ _ leads => leads_access 2 false fun _ _ => leads _ _

theorem readLeads_U32 : ReadLeads readU32 :=
  fun _ _ _ leads => leads_access 4 false fun _ _ => leads _ _

theorem readLeads_U64 : ReadLeads readU64 :=
  fun _ _ _ leads => leads_access 8 false fun _ _ => leads _ _

/-- A store that changes only its own bytes. -/
def StoresAt (size : Nat) (store : Memory → Word → Memory) : Prop :=
  ∀ memory pointer place, (∀ byte < size, place ≠ pointer + BitVec.ofNat 64 byte) →
    store memory pointer place = memory place

theorem storesAt_U8 (value : BitVec 8) :
    StoresAt 1 fun memory place => memory.writeU8 place value := by
  intro memory pointer place outside
  have apart : place ≠ pointer := by
    have first := outside 0 (by decide)
    rwa [BitVec.add_zero] at first
  exact if_neg apart

theorem storesAt_U16 (value : BitVec 16) :
    StoresAt 2 fun memory place => memory.writeU16 place value := by
  intro memory pointer place outside
  have low := storesAt_U8 (value.setWidth 8) memory pointer place
    fun byte inside => outside byte (inside.trans (by decide))
  have high : place ≠ pointer + 1 := outside 1 (by decide)
  exact (if_neg high).trans low

theorem storesAt_U32 (value : BitVec 32) :
    StoresAt 4 fun memory place => memory.writeU32 place value := by
  intro memory pointer place outside
  have low := storesAt_U16 (value.setWidth 16) memory pointer place
    fun byte inside => outside byte (inside.trans (by decide))
  have high := storesAt_U16 ((value >>> 16).setWidth 16)
    (memory.writeU16 pointer (value.setWidth 16)) (pointer + 2) place (by
      intro byte inside
      have sum : (2 : Word) + BitVec.ofNat 64 byte = BitVec.ofNat 64 (2 + byte) :=
        (BitVec.ofNat_add 2 byte).symm
      rw [BitVec.add_assoc, sum]
      exact outside (2 + byte) (by omega))
  exact high.trans low

theorem storesAt_U64 (value : BitVec 64) :
    StoresAt 8 fun memory place => memory.writeU64 place value := by
  intro memory pointer place outside
  have low := storesAt_U32 (value.setWidth 32) memory pointer place
    fun byte inside => outside byte (inside.trans (by decide))
  have high := storesAt_U32 ((value >>> 32).setWidth 32)
    (memory.writeU32 pointer (value.setWidth 32)) (pointer + 4) place (by
      intro byte inside
      have sum : (4 : Word) + BitVec.ofNat 64 byte = BitVec.ofNat 64 (4 + byte) :=
        (BitVec.ofNat_add 4 byte).symm
      rw [BitVec.add_assoc, sum]
      exact outside (4 + byte) (by omega))
  exact high.trans low

theorem leads_write {size : Word} {store : Memory → Word → Memory}
    (stores : StoresAt size.toNat store) {goOn : PCodeVM → Option PCodeVM}
    (leads : ∀ after, PCodeVM.Leads after (goOn after)) :
    vm.Leads (vm.write size store address goOn) := by
  rw [PCodeVM.write, access]
  cases accessed : vm.accessPointer address size true with
  | mk found after =>
    have isAfter : (vm.accessPointer address size true).2 = after := congrArg Prod.snd accessed
    have moves : ReflTransGen Move vm after := isAfter ▸ .single (.access address size true)
    cases found with
    | none => exact leads_some moves
    | some pointer =>
      dsimp only
      split
      · exact leads_some moves
      · have stored : Move vm
            { after with
              machine := after.machine.setMemory (store after.machine.memory pointer) } := by
          have points : (vm.accessPointer address size true).1 = some pointer :=
            congrArg Prod.fst accessed
          have frame : ∀ place,
              (∀ byte < size.toNat, place ≠ pointer + BitVec.ofNat 64 byte) →
                store after.machine.memory pointer place =
                  (vm.accessPointer address size true).2.machine.memory place :=
            fun place outside => isAfter ▸ stores after.machine.memory pointer place outside
          have move := Move.store points frame
          rw [isAfter] at move
          exact move
        exact (leads _).after (.single stored)

section Writes

variable {goOn : PCodeVM → Option PCodeVM} (leads : ∀ after, PCodeVM.Leads after (goOn after))

include leads

theorem leads_writeU8 {value : BitVec 8} : vm.Leads (vm.writeU8 address value goOn) :=
  leads_write (show StoresAt (1 : Word).toNat _ from storesAt_U8 value) leads

theorem leads_writeU16 {value : BitVec 16} : vm.Leads (vm.writeU16 address value goOn) :=
  leads_write (show StoresAt (2 : Word).toNat _ from storesAt_U16 value) leads

theorem leads_writeU32 {value : BitVec 32} : vm.Leads (vm.writeU32 address value goOn) :=
  leads_write (show StoresAt (4 : Word).toNat _ from storesAt_U32 value) leads

theorem leads_writeU64 {value : BitVec 64} : vm.Leads (vm.writeU64 address value goOn) :=
  leads_write (show StoresAt (8 : Word).toNat _ from storesAt_U64 value) leads

end Writes

theorem moves_forgetBelowSp : ReflTransGen Move vm vm.forgetBelowSp := by
  rw [forgetBelowSp]
  split
  · exact .single .forget
  · exact .refl

/-- The 32 bit instructions. -/
theorem leads_step32 (honest : escape.Honest) (opcode : Opcode32) :
    vm.Leads (vm.step32 floats escape inst opcode) := by
  have pushed (amount : Word) : ReflTransGen Move vm (vm.moveSp amount) := moves_registers rfl rfl
  have finish (after : PCodeVM) : after.Leads (some after) := leads_some .refl
  cases opcode with
  | add | sub | addf | addd | subf | subd | mul | mulf | muld | or | and | xor | not | inv | neg
  | negf | negd | cmpeq | cmpne | cmplt | cmple | cmpgt | cmpge | cmpltu | cmpleu | cmpgtu | cmpgeu
  | cmpeqf | cmpnef | cmpltf | cmplef | cmpgtf | cmpgef | cmpeqd | cmpned | cmpltd | cmpled | cmpgtd
  | cmpged | cmp3way | cmp3wayu | cmp3wayf | cmp3wayd | decsp | incsp | mov | movf | movd | cbra
  | i2f | i2d | ui2f | ui2d | f2d | d2f => exact leads_registers rfl rfl
  | div | divu | mod | modu =>
    rw [step32]
    split
    · exact leads_stopWith honest 1
    · exact leads_hostOp _
  | divf | divd =>
    rw [step32]
    split
    · exact leads_stopWith honest 1
    · exact leads_registers rfl rfl
  | lsr | asr | lsl => exact leads_hostOp _
  | f2i | d2i | f2ui | d2ui => exact leads_toInt _ _
  | push => exact (leads_writeU32 finish).after (pushed (-4))
  | pushf => exact (leads_writeU32 finish).after (pushed (-4))
  | pushd => exact (leads_writeU64 finish).after (pushed (-8))
  | pushx => exact (leads_writeU64 finish).after (pushed (-8))
  | pop | popf =>
    rw [step32]
    exact readLeads_U32 _ _ _ fun value after => leads_registers rfl rfl
  | popd | popx =>
    rw [step32]
    exact readLeads_U64 _ _ _ fun value after => leads_registers rfl rfl
  | ret =>
    rw [step32]
    apply readLeads_U64
    intro value after
    have popped : ReflTransGen Move after ((after.setInt pcReg value).moveSp 8) :=
      moves_registers rfl rfl
    exact leads_some (popped.trans moves_forgetBelowSp)
  | rcall =>
    refine (leads_writeU64 ?_).after (pushed (-8))
    intro after
    exact leads_some (moves_forgetBelowSp.trans (moves_registers rfl rfl))
  | esc =>
    have handled := honest (immediate24 inst) vm
    rw [step32]
    split
    · exact leads_some (handled.trans (moves_registers rfl rfl))
    · exact leads_some handled

theorem leads_load {width : Nat}
    {read : Word → (BitVec width → PCodeVM → Option PCodeVM) → PCodeVM → Option PCodeVM}
    (reads : ReadLeads read) {keep : BitVec width → PCodeVM → PCodeVM}
    (keeps : ∀ value after, ReflTransGen Move after (keep value after)) :
    vm.Leads (vm.load inst pc read keep) := by
  apply readLeads_U32
  intro offset after
  apply reads
  intro value after
  exact leads_some ((keeps value after).trans (moves_registers rfl rfl))

theorem leads_store {write : PCodeVM → Word → (PCodeVM → Option PCodeVM) → PCodeVM → Option PCodeVM}
    (writes : ∀ (vm : PCodeVM) (address : Word) (goOn : PCodeVM → Option PCodeVM),
      (∀ after, PCodeVM.Leads after (goOn after)) → vm.Leads (write vm address goOn vm)) :
    vm.Leads (vm.store inst pc write) := by
  apply readLeads_U32
  intro offset after
  apply writes
  intro after
  exact leads_registers rfl rfl

theorem leads_branch (taken : PCodeVM → Bool) : vm.Leads (vm.branch pc taken) :=
  readLeads_U32 _ _ _ fun _ _ => leads_registers rfl rfl

/-- The 64 bit instructions. -/
theorem leads_step64 (opcode : Opcode64) : vm.Leads (vm.step64 inst pc opcode) := by
  cases opcode with
  | ldw | lduw | lda => exact leads_load readLeads_U32 fun _ _ => moves_registers rfl rfl
  | ldh | lduh => exact leads_load readLeads_U16 fun _ _ => moves_registers rfl rfl
  | ldb | ldub => exact leads_load readLeads_U8 fun _ _ => moves_registers rfl rfl
  | ldx | ldd => exact leads_load readLeads_U64 fun _ _ => moves_registers rfl rfl
  | ldf => exact leads_load readLeads_U32 fun _ _ => moves_registers rfl rfl
  | stw | stf => exact leads_store fun _ _ _ leads => leads_writeU32 leads
  | sth => exact leads_store fun _ _ _ leads => leads_writeU16 leads
  | stx | std => exact leads_store fun _ _ _ leads => leads_writeU64 leads
  | stb => exact leads_store fun _ _ _ leads => leads_writeU8 leads
  | movc | movfc | addc =>
    rw [step64]
    exact readLeads_U32 _ _ _ fun _ _ => leads_registers rfl rfl
  | bz | bnz | bra => exact leads_branch _

/-- The 96 bit instructions. -/
theorem leads_step96 (opcode : Opcode96) : vm.Leads (vm.step96 inst pc opcode) := by
  cases opcode with
  | movdc | movxc | jmp | adr =>
    rw [step96]
    exact readLeads_U64 _ _ _ fun _ _ => leads_registers rfl rfl
  | call =>
    have pushed : ReflTransGen Move vm (vm.moveSp (-8)) := moves_registers rfl rfl
    refine (leads_writeU64 ?_).after pushed
    intro after
    refine (readLeads_U64 _ _ _ ?_).after moves_forgetBelowSp
    intro offset after
    exact leads_registers rfl rfl
  | cjmp =>
    rw [step96]
    apply readLeads_U64
    intro offset after
    exact readLeads_U64 _ _ _ fun _ _ => leads_registers rfl rfl

/-- A step is made of moves. -/
theorem leads_step (honest : escape.Honest) : vm.Leads (vm.step floats escape) := by
  rw [step]
  split
  · exact leads_some .refl
  split
  · exact leads_registers rfl rfl
  have counted : ReflTransGen Move vm { vm with steps := vm.steps + 1 } := moves_registers rfl rfl
  refine (readLeads_U32 _ _ _ ?_).after counted
  intro inst after
  have advanced : ReflTransGen Move after (after.advance 4) := moves_registers rfl rfl
  cases decode inst with
  | short opcode =>
    cases opcode with
    | some opcode => exact (leads_step32 honest opcode).after advanced
    | none => exact (leads_stopWith honest 0).after advanced
  | medium opcode =>
    cases opcode with
    | some opcode => exact (leads_step64 opcode).after advanced
    | none => exact (leads_stopWith honest 0).after advanced
  | long opcode =>
    cases opcode with
    | some opcode => exact (leads_step96 opcode).after advanced
    | none => exact (leads_stopWith honest 0).after advanced

end Steps

section Runs

variable {floats : HostFloats} {escape : PCodeVMEscapeHandler} {start vm vm' inside : PCodeVM}

theorem Act.checked (honest : escape.Honest) (act : Act floats escape vm vm') (checked : vm.Checked) :
    vm'.Checked := by
  cases act with
  | register memory size writable => exact checked.registerMemoryRegion memory size writable
  | registerStateful memory size writable initialState =>
    exact checked.registerStatefulMemoryRegion memory size writable initialState
  | endLifetime address size => exact checked.setMemoryState address size endedLifetimeState
  | step steps => exact checked_of_moves (leads_step honest vm' steps) checked

theorem Starts.checked (starts : start.Starts) : start.Checked := by
  constructor
  · exact starts.checkedMemory
  · intro region isIn
    rw [starts.noRegions] at isIn
    exact absurd isIn List.not_mem_nil
  · intro region isIn
    rw [starts.noRegions] at isIn
    exact absurd isIn List.not_mem_nil

theorem checked_of_run (honest : escape.Honest) (starts : start.Starts)
    (run : ReflTransGen (Act floats escape) start vm) : vm.Checked := by
  induction run with
  | refl => exact starts.checked
  | tail _ act ih => exact act.checked honest ih

/-- In every run with checked memory, at every point of it and inside its steps, an access is
confined exactly when it is not misdirected. -/
theorem confined_in_run_iff (honest : escape.Honest) (starts : start.Starts)
    (run : ReflTransGen (Act floats escape) start vm) (within : ReflTransGen Move vm inside)
    (address size : Word) (write : Bool) :
    inside.Confined address size write ↔ ¬inside.Misdirected address size write :=
  confined_iff_not_misdirected (checked_of_moves within (checked_of_run honest starts run))

theorem honest_defaultEscape : PCodeVMEscapeHandler.Honest defaultEscape :=
  fun _ _ => .refl

/-- A machine without a stack, before it has regions. -/
def bareMachine : PCodeVM where
  machine := ⟨fun _ => 0, fun _ => 0, fun _ => 0, fun _ => 0⟩
  stack := 0
  stackSize := 0
  steps := 0
  maxSteps := -1
  status := .running
  checkedMemory := true
  memoryRegions := []
  stackEndedLow := BitVec.allOnes 64
  readAfterLifetime := false
  failedReadState := 0

/-- A constant and a variable whose addresses have the same low half. -/
def twinMachine : PCodeVM :=
  (bareMachine.registerMemoryRegion 0x100001000 16 false).registerMemoryRegion 0x200001000 16 true

theorem twinMachine_run : ReflTransGen (Act zeroFloats defaultEscape) bareMachine twinMachine :=
  .tail (.single (.register 0x100001000 16 false)) (.register 0x200001000 16 true)

theorem confined_in_run_twinMachine :
    twinMachine.Confined 0x100001000 4 false ↔ ¬twinMachine.Misdirected 0x100001000 4 false :=
  confined_in_run_iff honest_defaultEscape ⟨rfl, rfl⟩ twinMachine_run .refl 0x100001000 4 false

/-- A store to the constant goes to the variable. -/
theorem not_confined_in_run :
    ¬∀ (floats : HostFloats) (escape : PCodeVMEscapeHandler), escape.Honest →
      ∀ start vm inside : PCodeVM, start.Starts → ReflTransGen (Act floats escape) start vm →
        ReflTransGen Move vm inside →
          ∀ (address size : Word) (write : Bool), inside.Confined address size write := by
  intro confined
  have stored := confined zeroFloats defaultEscape honest_defaultEscape bareMachine twinMachine
    twinMachine ⟨rfl, rfl⟩ twinMachine_run .refl 0x100001000 4 true
  have points : (twinMachine.accessPointer 0x100001000 4 true).1 = some 0x200001000 := by decide
  have named : twinMachine.Named 0x100001000 := ⟨.region 0, _, rfl, by decide, by decide⟩
  have ⟨object, isAddress, isPointer⟩ := stored.sameObject 0x200001000 points named
  cases object with
  | stack => exact isAddress.1 rfl
  | region index =>
    have ⟨region, isAt, holds⟩ := isAddress
    have ⟨region', isAt', holds'⟩ := isPointer
    cases isAt.symm.trans isAt'
    have start_le := holds.start_le
    have le_stop := holds'.le_stop
    have isIn := List.mem_of_getElem? isAt
    change region ∈ [_, _] at isIn
    simp only [List.mem_cons, List.not_mem_nil, or_false] at isIn
    cases isIn with
    | inl first =>
      rw [first] at le_stop
      exact absurd le_stop (by decide)
    | inr second =>
      rw [second] at start_le
      exact absurd start_le (by decide)

end Runs

end PCodeVM

end DaveCC.PCode
