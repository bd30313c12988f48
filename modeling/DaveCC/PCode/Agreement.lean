import DaveCC.PCode.Interpreter
import DaveCC.PCode.Vm

/-!
# Agreement of the p-code interpreters

With the memory checks of the virtual machine off, the two interpreters take the same
steps as long as no step reaches an operation that the host leaves undefined, no floating
divisor is zero and the virtual machine has steps left.
-/

namespace DaveCC.PCode

/-- Two steps agree: both go on with the same registers and the same memory, or both
stop, and neither evaluates an operation that the host leaves undefined. -/
def StepsAgree : Option PCodeVM → Option PCodeInterpreter → Prop
  | some vm, some interpreter =>
    (vm.status = .running ∧ interpreter.exited = false ∧ vm.machine = interpreter.machine) ∨
      (vm.status ≠ .running ∧ interpreter.exited = true)
  | _, _ => False

namespace Machine

/-- The instruction at the program counter. -/
def instruction (machine : Machine) : BitVec 32 :=
  machine.memory.readU32 (machine.iregs pcReg)

/-- The next instruction is `lda` or a host escape. -/
def AtEscape (machine : Machine) : Prop :=
  decode machine.instruction = .short (some .esc) ∨ decode machine.instruction = .medium (some .lda)

/-- What a 32 bit instruction needs of the registers. -/
def Allowed32 (floats : HostFloats) (inst : BitVec 32) (machine : Machine) : Opcode32 → Prop
  | .div =>
    machine.iregs (src2 inst) ≠ 0 → divides (machine.iregs (src1 inst)) (machine.iregs (src2 inst))
  | .mod => divides (machine.iregs (src1 inst)) (machine.iregs (src2 inst))
  | .modu => machine.iregs (src2 inst) ≠ 0
  | .divf => floats.single.eq (machine.fregs (src2 inst)) 0 = false
  | .divd => floats.double.eq (machine.dregs (src2 inst)) 0 = false
  | .lsr | .asr | .lsl => (machine.iregs (src2 inst)).toNat < 64
  | .f2i => (floats.single.toInt (machine.fregs (src1 inst))).isSome
  | .d2i => (floats.double.toInt (machine.dregs (src1 inst))).isSome
  | .f2ui => (floats.single.toUInt (machine.fregs (src1 inst))).isSome
  | .d2ui => (floats.double.toUInt (machine.dregs (src1 inst))).isSome
  | .push | .pushf => machine.iregs spReg + -4 ≠ 0
  | .pushd | .pushx | .rcall => machine.iregs spReg + -8 ≠ 0
  | .pop | .popf | .popd | .popx | .ret => machine.iregs spReg ≠ 0
  | _ => True

/-- What a 64 bit instruction needs: neither its offset nor what it accesses is at the
null address. -/
def Allowed64 (inst : BitVec 32) (pc : Word) (machine : Machine) : Opcode64 → Prop
  | .movc | .movfc | .bz | .bnz | .bra | .addc => pc ≠ 0
  | _ => pc ≠ 0 ∧ machine.iregs (src1 inst) + (machine.memory.readU32 pc).signExtend 64 ≠ 0

/-- What a 96 bit instruction needs of memory. -/
def Allowed96 (pc : Word) (machine : Machine) : Opcode96 → Prop
  | .call => machine.iregs spReg + -8 ≠ 0 ∧ pc ≠ 0
  | .cjmp => pc ≠ 0 ∧ machine.iregs pcReg + 8 + machine.memory.readU64 pc ≠ 0
  | _ => pc ≠ 0

/-- The next instruction can be read, and has what it needs once the program counter is
behind it. -/
def Allowed (floats : HostFloats) (machine : Machine) : Prop :=
  let pc := machine.iregs pcReg
  let fetched := machine.setInt pcReg (pc + 4)
  pc ≠ 0 ∧
    match decode machine.instruction with
    | .short (some opcode) => fetched.Allowed32 floats machine.instruction opcode
    | .medium (some opcode) => fetched.Allowed64 machine.instruction (pc + 4) opcode
    | .long (some opcode) => fetched.Allowed96 (pc + 4) opcode
    | .short none | .medium none | .long none => True

/-- A 32 bit instruction that stops both interpreters. -/
def Stops32 (inst : BitVec 32) (machine : Machine) : Opcode32 → Prop
  | .div | .divu => machine.iregs (src2 inst) = 0
  | _ => False

/-- The next instruction stops both: its opcode is undefined, or it is an integer
division by zero. -/
def Stops (machine : Machine) : Prop :=
  let fetched := machine.setInt pcReg (machine.iregs pcReg + 4)
  match decode machine.instruction with
  | .short (some opcode) => fetched.Stops32 machine.instruction opcode
  | .medium (some _) | .long (some _) => False
  | .short none | .medium none | .long none => True

end Machine

namespace PCodeVM

/-- The limit of steps is not reached. -/
def WithinLimit (vm : PCodeVM) : Prop :=
  vm.maxSteps < 0 ∨ vm.steps < vm.maxSteps

/-- What a step needs of the state before it. At the limit of steps the virtual machine
stops, so the other interpreter has to stop as well. -/
def Allowed (floats : HostFloats) (vm : PCodeVM) : Prop :=
  vm.machine.Allowed floats ∧ (vm.WithinLimit ∨ vm.machine.Stops)

end PCodeVM

section Runs

variable (floats : HostFloats) (escape : PCodeVMEscapeHandler)
  (hostEscape : BitVec 32 → PCodeInterpreter → Option PCodeInterpreter)

/-- The interpreters agree for a number of steps, or until `lda` or a host escape. -/
def AgreeFor : Nat → PCodeVM → PCodeInterpreter → Prop
  | 0, _, _ => True
  | steps + 1, vm, interpreter =>
    vm.machine.AtEscape ∨
      (StepsAgree (vm.step floats escape) (interpreter.step floats hostEscape) ∧
        ∀ vm' interpreter', vm.step floats escape = some vm' →
          interpreter.step floats hostEscape = some interpreter' →
          vm'.status = .running → AgreeFor steps vm' interpreter')

/-- Each of a number of steps has what it needs, up to `lda` or a host escape. -/
def AllowedFor : Nat → PCodeVM → Prop
  | 0, _ => True
  | steps + 1, vm =>
    vm.machine.AtEscape ∨
      (vm.Allowed floats ∧
        ∀ vm', vm.step floats escape = some vm' → vm'.status = .running → AllowedFor steps vm')

end Runs

/-! ## Lockstep -/

namespace PCodeVM

/-- The machine is running without memory checks. -/
structure RunsUnchecked (vm : PCodeVM) : Prop where
  running : vm.status = .running
  unchecked : vm.checkedMemory = false
  stateless : ∀ region ∈ vm.memoryRegions, region.states = none

/-- The other interpreter with the same registers and memory. -/
def interpreter (vm : PCodeVM) : PCodeInterpreter :=
  { machine := vm.machine }

end PCodeVM

/-- Two steps agree exactly when they are allowed, leave the memory checks off, and end
the other interpreter only where both stop. -/
structure Lockstep (exiting : Prop) (result : Option PCodeVM) (other : Option PCodeInterpreter)
    (allowed : Prop) : Prop where
  agree : StepsAgree result other ↔ allowed
  runs : ∀ vm, result = some vm → vm.status = .running → vm.RunsUnchecked
  same : ∀ vm interpreter, result = some vm → other = some interpreter →
    StepsAgree result other → vm.status = .running → interpreter = vm.interpreter
  exits : ∀ interpreter, other = some interpreter → interpreter.exited = true → exiting

section Lockstep

variable {floats : HostFloats} {escape : PCodeVMEscapeHandler}
  {hostEscape : BitVec 32 → PCodeInterpreter → Option PCodeInterpreter}
  {vm : PCodeVM} {inst : BitVec 32} {allowed exiting : Prop}

variable {result : Option PCodeVM}

theorem Lockstep.congr {other : Option PCodeInterpreter} {needed : Prop}
    (lockstep : Lockstep exiting result other allowed) (iff : allowed ↔ needed) :
    Lockstep exiting result other needed :=
  ⟨lockstep.agree.trans iff, lockstep.runs, lockstep.same, lockstep.exits⟩

/-- Both go on alike. -/
theorem lockstep_some (runs : vm.RunsUnchecked) : Lockstep exiting (some vm) (some vm.interpreter) True where
  agree := iff_of_true (.inl ⟨runs.running, rfl, rfl⟩) trivial
  runs := by
    intro _ isVm _
    cases isVm
    exact runs
  same := by
    intro _ _ isVm isInterpreter _ _
    cases isVm
    cases isInterpreter
    rfl
  exits := by
    intro _ isInterpreter exits
    cases isInterpreter
    cases exits

variable {other : PCodeInterpreter}

/-- Both stop. -/
theorem lockstep_stop (ending : exiting) (stops : vm.status ≠ .running)
    (exits : other.exited = true) : Lockstep exiting (some vm) (some other) True where
  agree := iff_of_true (.inr ⟨stops, exits⟩) trivial
  runs := by
    intro _ isVm running
    cases isVm
    exact absurd running stops
  same := by
    intro _ _ isVm _ _ running
    cases isVm
    exact absurd running stops
  exits := fun _ _ _ => ending

/-- One stops and the other goes on. -/
theorem lockstep_apart (stops : vm.status ≠ .running) (goesOn : other.exited = false) :
    Lockstep exiting (some vm) (some other) False where
  agree := by
    refine iff_of_false ?_ id
    rintro (⟨running, -⟩ | ⟨-, exits⟩)
    · exact stops running
    · rw [goesOn] at exits
      cases exits
  runs := by
    intro _ isVm running
    cases isVm
    exact absurd running stops
  same := by
    intro _ _ isVm _ _ running
    cases isVm
    exact absurd running stops
  exits := by
    intro _ isOther exits
    cases isOther
    exact absurd exits (goesOn ▸ Bool.false_ne_true)

/-- The other interpreter evaluates an operation that the host leaves undefined. -/
theorem lockstep_undefined
    (runs : ∀ vm, result = some vm → vm.status = .running → vm.RunsUnchecked) :
    Lockstep exiting result none False where
  agree := by
    cases result <;> exact Iff.rfl
  runs := runs
  same := by
    intro _ _ _ isInterpreter
    cases isInterpreter
  exits := by
    intro _ isInterpreter
    cases isInterpreter

/-- The virtual machine goes on where the other interpreter evaluates an operation that
the host leaves undefined. -/
theorem lockstep_missed (runs : vm.RunsUnchecked) : Lockstep exiting (some vm) none False :=
  lockstep_undefined fun _ isVm _ => by cases isVm; exact runs

theorem lockstep_none : Lockstep exiting none none False :=
  lockstep_undefined fun _ isVm => by cases isVm

open PCodeVM

theorem accessPointer_eq (runs : vm.RunsUnchecked) (address size : Word) (write : Bool) :
    vm.accessPointer address size write = (some address, vm) := by
  have passes : vm.checkMemoryAccess address size write = (true, vm) := by
    rw [checkMemoryAccess, runs.unchecked]
    rfl
  have stateless : vm.statefulRegion address size write = none := by
    apply List.findSome?_eq_none_iff.mpr
    intro (region, index) isRegion
    have isRegion : region ∈ vm.memoryRegions :=
      List.fst_mem_of_mem_zipIdx (List.mem_reverse.mp isRegion)
    simp only [runs.stateless region isRegion]
  rw [accessPointer, passes]
  simp [accessStates, stateless]

theorem access_eq (runs : vm.RunsUnchecked) (address size : Word) (write : Bool)
    (next : Word → PCodeVM → Option PCodeVM) :
    vm.access address size write next = if address = 0 then some vm else next address vm := by
  rw [PCodeVM.access, accessPointer_eq runs]

/-- An access of both goes on unless it is at the null address. -/
theorem lockstep_access {α : Type} (runs : vm.RunsUnchecked) {address size : Word} {write : Bool}
    {value : α} {next : Word → PCodeVM → Option PCodeVM} {otherNext : α → Option PCodeInterpreter}
    (goesOn : Lockstep exiting (next address vm) (otherNext value) allowed) :
    Lockstep exiting (vm.access address size write next)
      ((if address = 0 then none else some value) >>= otherNext) (address ≠ 0 ∧ allowed) := by
  rw [access_eq runs]
  by_cases null : address = 0
  · rw [if_pos null, if_pos null]
    exact (lockstep_missed runs).congr (iff_of_false id fun needs => needs.1 null)
  · rw [if_neg null, if_neg null]
    exact goesOn.congr ⟨fun holds => ⟨null, holds⟩, And.right⟩

section

variable (runs : vm.RunsUnchecked) {address : Word}

include runs

theorem lockstep_readU8 {next : BitVec 8 → PCodeVM → Option PCodeVM}
    {otherNext : BitVec 8 → Option PCodeInterpreter}
    (goesOn : Lockstep exiting (next (vm.machine.memory address) vm) (otherNext (vm.machine.memory
      address)) allowed) :
    Lockstep exiting (vm.readU8 address next) (vm.interpreter.readU8 address >>= otherNext)
      (address ≠ 0 ∧ allowed) :=
  lockstep_access runs goesOn

theorem lockstep_readU16 {next : BitVec 16 → PCodeVM → Option PCodeVM}
    {otherNext : BitVec 16 → Option PCodeInterpreter}
    (goesOn : Lockstep exiting (next (vm.machine.memory.readU16 address) vm) (otherNext
      (vm.machine.memory.readU16 address)) allowed) :
    Lockstep exiting (vm.readU16 address next) (vm.interpreter.readU16 address >>= otherNext)
      (address ≠ 0 ∧ allowed) :=
  lockstep_access runs goesOn

theorem lockstep_readU32 {next : BitVec 32 → PCodeVM → Option PCodeVM}
    {otherNext : BitVec 32 → Option PCodeInterpreter}
    (goesOn : Lockstep exiting (next (vm.machine.memory.readU32 address) vm) (otherNext
      (vm.machine.memory.readU32 address)) allowed) :
    Lockstep exiting (vm.readU32 address next) (vm.interpreter.readU32 address >>= otherNext)
      (address ≠ 0 ∧ allowed) :=
  lockstep_access runs goesOn

theorem lockstep_readU64 {next : BitVec 64 → PCodeVM → Option PCodeVM}
    {otherNext : BitVec 64 → Option PCodeInterpreter}
    (goesOn : Lockstep exiting (next (vm.machine.memory.readU64 address) vm) (otherNext
      (vm.machine.memory.readU64 address)) allowed) :
    Lockstep exiting (vm.readU64 address next) (vm.interpreter.readU64 address >>= otherNext)
      (address ≠ 0 ∧ allowed) :=
  lockstep_access runs goesOn

end

/-- The virtual machine with another memory. -/
def PCodeVM.withMemory (memory : Memory) (vm : PCodeVM) : PCodeVM :=
  { vm with machine := vm.machine.setMemory memory }

variable {store : Memory → Word → Memory}

theorem lockstep_write (runs : vm.RunsUnchecked) {address size : Word}
    {next : PCodeVM → Option PCodeVM} {otherNext : PCodeInterpreter → Option PCodeInterpreter}
      (goesOn : ∀ stored : PCodeVM, stored.RunsUnchecked → stored.machine = vm.machine.setMemory
      (store vm.machine.memory address) → Lockstep exiting (next stored) (otherNext
      stored.interpreter) allowed) :
    Lockstep exiting (vm.write size store address next)
      (vm.interpreter.write store address >>= otherNext) (address ≠ 0 ∧ allowed) := by
  have stored := goesOn (vm.withMemory (store vm.machine.memory address))
    ⟨runs.running, runs.unchecked, runs.stateless⟩ rfl
  exact lockstep_access runs stored

/-- A store at the end of a step. -/
theorem lockstep_write_last (runs : vm.RunsUnchecked) {address size : Word} :
    Lockstep exiting (vm.write size store address some) (vm.interpreter.write store address)
      (address ≠ 0) := by
  have goesOn : Lockstep exiting (vm.write size store address some)
      (vm.interpreter.write store address >>= some) (address ≠ 0 ∧ True) :=
    lockstep_write runs fun stored runs _ => lockstep_some runs
  have same (result : Option PCodeInterpreter) : (result >>= some) = result := bind_pure result
  rw [same] at goesOn
  exact goesOn.congr (and_iff_left trivial)

/-- Without regions, forgetting lifetimes changes no register and no memory. -/
theorem machine_forgetBelowSp : vm.forgetBelowSp.machine = vm.machine := by
  rw [forgetBelowSp, forgetEndedStackLifetimes]
  split
  · split <;> rfl
  · rfl

theorem runs_forgetBelowSp (runs : vm.RunsUnchecked) : vm.forgetBelowSp.RunsUnchecked := by
  have noStack : (vm.memoryRegions.findIdx? fun region =>
      region.start = vm.stack && region.states.isSome) = none := by
    apply List.findIdx?_eq_none_iff.mpr
    intro region isRegion
    rw [runs.stateless region isRegion]
    exact Bool.and_false _
  rw [forgetBelowSp, forgetEndedStackLifetimes, noStack]
  split
  · split
    · exact runs
    · exact ⟨runs.running, runs.unchecked, runs.stateless⟩
  · exact runs

theorem interpreter_forgetBelowSp : vm.forgetBelowSp.interpreter = vm.interpreter := by
  rw [interpreter, machine_forgetBelowSp]
  rfl

theorem setInt_runs (runs : vm.RunsUnchecked) (register : Register) (value : Word) :
    (vm.setInt register value).RunsUnchecked :=
  ⟨runs.running, runs.unchecked, runs.stateless⟩

theorem setFloat_runs (runs : vm.RunsUnchecked) (register : Register) (value : BitVec 32) :
    (vm.setFloat register value).RunsUnchecked :=
  ⟨runs.running, runs.unchecked, runs.stateless⟩

theorem setDouble_runs (runs : vm.RunsUnchecked) (register : Register) (value : BitVec 64) :
    (vm.setDouble register value).RunsUnchecked :=
  ⟨runs.running, runs.unchecked, runs.stateless⟩

section

variable (runs : vm.RunsUnchecked)

include runs

theorem lockstep_intOp (op : Word → Word → Word) :
    Lockstep exiting (vm.intOp inst op) (vm.interpreter.intOp inst op) True :=
  lockstep_some (setInt_runs runs _ _)

theorem lockstep_singleOp (op : BitVec 32 → BitVec 32 → BitVec 32) :
    Lockstep exiting (vm.singleOp inst op) (vm.interpreter.singleOp inst op) True :=
  lockstep_some (setFloat_runs runs _ _)

theorem lockstep_doubleOp (op : BitVec 64 → BitVec 64 → BitVec 64) :
    Lockstep exiting (vm.doubleOp inst op) (vm.interpreter.doubleOp inst op) True :=
  lockstep_some (setDouble_runs runs _ _)

theorem lockstep_compareSingle (op : BitVec 32 → BitVec 32 → Word) :
    Lockstep exiting (vm.compareSingle inst op) (vm.interpreter.compareSingle inst op) True :=
  lockstep_some (setInt_runs runs _ _)

theorem lockstep_compareDouble (op : BitVec 64 → BitVec 64 → Word) :
    Lockstep exiting (vm.compareDouble inst op) (vm.interpreter.compareDouble inst op) True :=
  lockstep_some (setInt_runs runs _ _)

/-- A value of the host that both put into a register. -/
theorem lockstep_hostValue (value : Option Word) :
    Lockstep exiting (value.map fun value => vm.setInt (dest inst) value)
      (value >>= fun value => some (vm.interpreter.setInt (dest inst) value))
      value.isSome := by
  cases value with
  | none => exact lockstep_none.congr (iff_of_false id (by simp))
  | some value => exact (lockstep_some (setInt_runs runs _ _)).congr (iff_of_true trivial rfl)

theorem lockstep_hostOp (op : Word → Word → Option Word) :
    Lockstep exiting (vm.hostOp inst op) (vm.interpreter.hostOp inst op)
      (op (vm.iregs (src1 inst)) (vm.iregs (src2 inst))).isSome :=
  lockstep_hostValue runs _

end

variable {a b : Word}

theorem isSome_hostDiv : (hostDiv a b).isSome ↔ divides a b := by
  rw [hostDiv]
  split <;> simp_all

theorem isSome_hostMod : (hostMod a b).isSome ↔ divides a b := by
  rw [hostMod]
  split <;> simp_all

theorem isSome_hostDivU : (hostDivU a b).isSome ↔ b ≠ 0 := by
  rw [hostDivU]
  split <;> simp_all

theorem isSome_hostModU : (hostModU a b).isSome ↔ b ≠ 0 := by
  rw [hostModU]
  split <;> simp_all

theorem isSome_hostShift {shift : Word → Nat → Word} {count : Word} :
    (hostShift shift a count).isSome ↔ count.toNat < 64 := by
  rw [hostShift]
  split <;> simp_all

theorem lockstep_shift (runs : vm.RunsUnchecked) (shift : Word → Nat → Word) :
    Lockstep exiting (vm.hostOp inst (hostShift shift)) (vm.interpreter.hostOp inst (hostShift shift))
      ((vm.machine.iregs (src2 inst)).toNat < 64) :=
  (lockstep_hostOp runs _).congr isSome_hostShift

/-- The virtual machine stops by way of its escape handler. -/
theorem lockstep_stopWith (ending : exiting) (code : BitVec 32) (stops : ∀ vm, (escape.handle code vm).1 ≠ .running) :
    Lockstep exiting (vm.stopWith escape code) (some vm.interpreter.dumpStateAndExit) True :=
  lockstep_stop ending (stops vm) rfl

variable {defined : Word → Word → Prop}

/-- Both check the divisor. -/
theorem lockstep_checked (runs : vm.RunsUnchecked)
    (ending : vm.machine.iregs (src2 inst) = 0 → exiting) (op : Word → Word → Option Word)
    (isSome : ∀ a b, (op a b).isSome ↔ defined a b) :
    Lockstep exiting (if vm.iregs (src2 inst) = 0 then vm.stopWith escape 1 else vm.hostOp inst op)
      (if vm.interpreter.iregs (src2 inst) = 0 then some vm.interpreter.dumpStateAndExit
        else vm.interpreter.hostOp inst op)
      (vm.machine.iregs (src2 inst) ≠ 0 →
        defined (vm.machine.iregs (src1 inst)) (vm.machine.iregs (src2 inst))) := by
  by_cases zero : vm.machine.iregs (src2 inst) = 0
  · rw [PCodeVM.iregs, if_pos zero, PCodeInterpreter.iregs, interpreter, if_pos zero]
    exact (lockstep_stopWith (ending zero) 1 escape.stops_division).congr
      (iff_of_true trivial fun nonzero => absurd zero nonzero)
  · rw [PCodeVM.iregs, if_neg zero, PCodeInterpreter.iregs, interpreter, if_neg zero]
    exact (lockstep_hostOp runs op).congr
      ((isSome _ _).trans ⟨fun defined _ => defined, fun defined => defined zero⟩)

/-- Only the virtual machine checks the divisor. -/
theorem lockstep_unchecked (runs : vm.RunsUnchecked) (op : Word → Word → Option Word)
    (isSome : ∀ a b, (op a b).isSome ↔ defined a b) (nonzero : ∀ a, ¬defined a 0) :
    Lockstep exiting (if vm.iregs (src2 inst) = 0 then vm.stopWith escape 1 else vm.hostOp inst op)
      (vm.interpreter.hostOp inst op)
      (defined (vm.machine.iregs (src1 inst)) (vm.machine.iregs (src2 inst))) := by
  by_cases zero : vm.machine.iregs (src2 inst) = 0
  · have undefined : op (vm.machine.iregs (src1 inst)) (vm.machine.iregs (src2 inst)) = none := by
      rw [← Option.not_isSome_iff_eq_none, isSome, zero]
      exact nonzero _
    have other : vm.interpreter.hostOp inst op = none := by
      change (op (vm.machine.iregs (src1 inst)) (vm.machine.iregs (src2 inst)) >>= _) = none
      rw [undefined]
      rfl
    rw [PCodeVM.iregs, if_pos zero, other]
    have stops : ∀ final, vm.stopWith escape 1 = some final → final.status = .running →
        final.RunsUnchecked := by
      intro final isFinal running
      cases isFinal
      exact absurd running (escape.stops_division vm)
    exact (lockstep_undefined stops).congr (iff_of_false id (by rw [zero]; exact nonzero _))
  · rw [PCodeVM.iregs, if_neg zero]
    exact (lockstep_hostOp runs op).congr (isSome _ _)

end Lockstep

end DaveCC.PCode
