import DaveCC.PCode.Agreement

/-!
# One step of both interpreters

Each instruction other than `lda` and a host escape takes both interpreters to the same
registers and memory exactly when it has what it needs. A run agrees as long as each of
its steps does.
-/

namespace DaveCC.PCode

section Lockstep

variable {floats : HostFloats} {escape : PCodeVMEscapeHandler}
  {hostEscape : BitVec 32 → PCodeInterpreter → Option PCodeInterpreter}
  {vm : PCodeVM} {inst : BitVec 32} {pc : Word} {exiting : Prop}

variable {other : PCodeInterpreter}

/-- Only the virtual machine stops at a floating divisor that is zero. -/
theorem lockstep_floatDivision {result : Option PCodeVM} (zero : Bool)
    (lockstep : Lockstep exiting result (some other) True) (goesOn : other.exited = false) :
    Lockstep exiting (if zero then vm.stopWith escape 1 else result) (some other) (zero = false) := by
  cases zero with
  | false => exact lockstep.congr (iff_of_true trivial rfl)
  | true =>
    exact (lockstep_apart (escape.stops_division vm) goesOn).congr
      (iff_of_false id Bool.noConfusion)

/-- Reads of both that go on alike with any value. -/
def ReadsAlike (exiting : Prop) (vm : PCodeVM) {width : Nat}
    (read : Word → (BitVec width → PCodeVM → Option PCodeVM) → PCodeVM → Option PCodeVM)
    (otherRead : Word → PCodeInterpreter → Option (BitVec width)) : Prop :=
  ∀ {address next otherNext}, (∀ value, Lockstep exiting (next value vm) (otherNext value) True) →
    Lockstep exiting (read address next vm) (otherRead address vm.interpreter >>= otherNext) (address ≠ 0)

section

variable (runs : vm.RunsUnchecked)

include runs

theorem readsAlike_U8 : ReadsAlike exiting vm PCodeVM.readU8 PCodeInterpreter.readU8 :=
  fun goesOn => (lockstep_readU8 runs (goesOn _)).congr (and_iff_left trivial)

theorem readsAlike_U16 : ReadsAlike exiting vm PCodeVM.readU16 PCodeInterpreter.readU16 :=
  fun goesOn => (lockstep_readU16 runs (goesOn _)).congr (and_iff_left trivial)

theorem readsAlike_U32 : ReadsAlike exiting vm PCodeVM.readU32 PCodeInterpreter.readU32 :=
  fun goesOn => (lockstep_readU32 runs (goesOn _)).congr (and_iff_left trivial)

theorem readsAlike_U64 : ReadsAlike exiting vm PCodeVM.readU64 PCodeInterpreter.readU64 :=
  fun goesOn => (lockstep_readU64 runs (goesOn _)).congr (and_iff_left trivial)

/-- A return: the lifetimes below the stack pointer are forgotten. -/
theorem lockstep_forgetBelowSp :
    Lockstep exiting (some vm.forgetBelowSp) (some vm.interpreter) True := by
  rw [← interpreter_forgetBelowSp]
  exact lockstep_some (runs_forgetBelowSp runs)

/-- The end of a call: the program counter is set. -/
theorem lockstep_callTarget (target : Machine → Word) :
    Lockstep exiting (some (vm.forgetBelowSp.setInt pcReg (target vm.forgetBelowSp.machine)))
      (some (vm.interpreter.setInt pcReg (target vm.interpreter.machine))) True := by
  rw [← interpreter_forgetBelowSp]
  exact lockstep_some (setInt_runs (runs_forgetBelowSp runs) _ _)

theorem lockstep_step32 {opcode : Opcode32} (noEscape : opcode ≠ .esc) :
    Lockstep (vm.machine.Stops32 inst opcode) (vm.step32 floats escape inst opcode)
      (vm.interpreter.step32 floats hostEscape inst opcode)
      (vm.machine.Allowed32 floats inst opcode) := by
  cases opcode with simp only [PCodeVM.step32, PCodeInterpreter.step32]
  | add | sub | mul | or | and | xor | not | inv | neg | mov | cmp3way | cmp3wayu =>
    exact lockstep_intOp runs _
  | cmpeq | cmpne | cmplt | cmple | cmpgt | cmpge | cmpltu | cmpleu | cmpgtu | cmpgeu =>
    exact lockstep_intOp runs _
  | addf | subf | mulf | negf | movf => exact lockstep_singleOp runs _
  | addd | subd | muld | negd | movd => exact lockstep_doubleOp runs _
  | cmpeqf | cmpnef | cmpltf | cmplef | cmpgtf | cmpgef | cmp3wayf =>
    exact lockstep_compareSingle runs _
  | cmpeqd | cmpned | cmpltd | cmpled | cmpgtd | cmpged | cmp3wayd =>
    exact lockstep_compareDouble runs _
  | div => exact lockstep_checked runs id _ fun _ _ => isSome_hostDiv
  | divu =>
    exact (lockstep_checked runs id _ fun _ _ => isSome_hostDivU).congr (iff_of_true id trivial)
  | divf => exact lockstep_floatDivision _ (lockstep_singleOp runs _) rfl
  | divd => exact lockstep_floatDivision _ (lockstep_doubleOp runs _) rfl
  | mod => exact lockstep_unchecked runs _ (fun _ _ => isSome_hostMod) fun _ divides => divides.1 rfl
  | modu =>
    exact lockstep_unchecked runs (fun a b => hostModU a b) (fun _ _ => isSome_hostModU)
      fun _ nonzero => nonzero rfl
  | lsr | asr | lsl => exact lockstep_shift runs _
  | decsp | incsp | cbra => exact lockstep_some (setInt_runs runs _ _)
  | i2f | ui2f | d2f => exact lockstep_some (setFloat_runs runs _ _)
  | i2d | ui2d | f2d => exact lockstep_some (setDouble_runs runs _ _)
  | f2i | d2i | f2ui | d2ui => exact lockstep_hostValue runs _
  | push | pushf | pushd | pushx => exact lockstep_write_last (setInt_runs runs _ _)
  | pop =>
    exact readsAlike_U32 runs fun _ => lockstep_some (setInt_runs (setInt_runs runs _ _) _ _)
  | popf =>
    exact readsAlike_U32 runs fun _ => lockstep_some (setInt_runs (setFloat_runs runs _ _) _ _)
  | popd =>
    exact readsAlike_U64 runs fun _ => lockstep_some (setInt_runs (setDouble_runs runs _ _) _ _)
  | popx =>
    exact readsAlike_U64 runs fun _ => lockstep_some (setInt_runs (setInt_runs runs _ _) _ _)
  | ret =>
    exact readsAlike_U64 runs fun _ =>
      lockstep_forgetBelowSp (setInt_runs (setInt_runs runs _ _) _ _)
  | rcall =>
    apply (lockstep_write (setInt_runs runs _ _) _).congr (and_iff_left trivial)
    intro stored runs _
    exact lockstep_callTarget runs fun machine => machine.iregs (dest inst)
  | esc => exact absurd rfl noEscape

end

/-- The operand of a load or a store. -/
def PCodeVM.operand (inst : BitVec 32) (pc : Word) (vm : PCodeVM) : Word :=
  vm.machine.iregs (src1 inst) + (vm.machine.memory.readU32 pc).signExtend 64

/-- Both read the offset behind the instruction. -/
theorem lockstep_operand (runs : vm.RunsUnchecked) {allowed : Prop}
    {next : BitVec 32 → PCodeVM → Option PCodeVM} {otherNext : Word → Option PCodeInterpreter}
    (goesOn : Lockstep exiting (next (vm.machine.memory.readU32 pc) vm)
      (otherNext (vm.operand inst pc)) allowed) :
    Lockstep exiting (vm.readU32 pc next) (vm.interpreter.operandAddress inst pc >>= otherNext)
      (pc ≠ 0 ∧ allowed) := by
  have other : vm.interpreter.operandAddress inst pc >>= otherNext =
      vm.interpreter.readU32 pc >>= fun offset =>
        otherNext (vm.interpreter.iregs (src1 inst) + offset.signExtend 64) := by
    rw [PCodeInterpreter.operandAddress]
    cases vm.interpreter.readU32 pc <;> rfl
  rw [other]
  exact lockstep_readU32 runs goesOn

/-- A load into a register. -/
theorem lockstep_load (runs : vm.RunsUnchecked) {width : Nat}
    {read : Word → (BitVec width → PCodeVM → Option PCodeVM) → PCodeVM → Option PCodeVM}
    {otherRead : Word → PCodeInterpreter → Option (BitVec width)}
    (alike : ReadsAlike exiting vm read otherRead) {keep : BitVec width → PCodeVM → PCodeVM}
    {otherNext : BitVec width → Option PCodeInterpreter}
    (goesOn : ∀ value, Lockstep exiting (some ((keep value vm).advance 4)) (otherNext value) True) :
    Lockstep exiting (vm.load inst pc read keep)
      (vm.interpreter.operandAddress inst pc >>= fun address =>
        otherRead address vm.interpreter >>= otherNext)
      (pc ≠ 0 ∧ vm.operand inst pc ≠ 0) :=
  lockstep_operand runs (alike goesOn)

theorem lockstep_store (runs : vm.RunsUnchecked) {size : Word}
    {store : PCodeVM → Memory → Word → Memory} :
    Lockstep exiting (vm.store inst pc fun vm address => PCodeVM.write size (store vm) address)
      (vm.interpreter.operandAddress inst pc >>= fun address =>
        vm.interpreter.write (store vm) address >>= fun stored => some (stored.advance 4))
      (pc ≠ 0 ∧ vm.operand inst pc ≠ 0) := by
  apply lockstep_operand runs
  apply (lockstep_write runs _).congr (and_iff_left trivial)
  intro stored runs _
  exact lockstep_some (setInt_runs runs _ _)

/-- Both go on, but not alike. -/
theorem lockstep_differ (runs : vm.RunsUnchecked) (goesOn : other.exited = false)
    (differ : vm.machine ≠ other.machine) : Lockstep exiting (some vm) (some other) False where
  agree := by
    apply iff_of_false _ id
    intro agree
    cases agree with
    | inl goOn => exact differ goOn.2.2
    | inr stop => exact stop.1 runs.running
  runs := by
    intro _ isVm _
    cases isVm
    exact runs
  same := by
    intro _ _ isVm isOther agree running
    cases isVm
    cases isOther
    cases agree with
    | inl goOn => exact absurd goOn.2.2 differ
    | inr stop => exact absurd running stop.1
  exits := by
    intro _ isOther exits
    cases isOther
    exact absurd exits (goesOn ▸ Bool.false_ne_true)

theorem machine_ne_advance : vm.machine ≠ (vm.interpreter.advance 4).machine := by
  intro same
  have moved : vm.machine.iregs pcReg = vm.machine.iregs pcReg + 4 :=
    congrArg (fun machine => machine.iregs pcReg) same
  bv_omega

/-- The other interpreter reads the offset of a branch only when it is taken. -/
theorem lockstep_branch (runs : vm.RunsUnchecked) (taken : PCodeVM → Prop) [DecidablePred taken] :
    Lockstep exiting (vm.branch pc fun vm => taken vm)
      (if taken vm then
        vm.interpreter.readU32 pc >>= fun offset =>
          some (vm.interpreter.advance ((offset + 4).signExtend 64))
      else some (vm.interpreter.advance 4))
      (pc ≠ 0) := by
  by_cases isTaken : taken vm
  · rw [if_pos isTaken]
    apply readsAlike_U32 runs
    intro offset
    rw [if_pos (decide_eq_true isTaken)]
    exact lockstep_some (setInt_runs runs _ _)
  · have stays : ¬decide (taken vm) = true := fun goes => isTaken (of_decide_eq_true goes)
    rw [if_neg isTaken, PCodeVM.branch, PCodeVM.readU32, access_eq runs]
    by_cases null : pc = 0
    · rw [if_pos null]
      exact (lockstep_differ runs rfl machine_ne_advance).congr
        (iff_of_false id fun readable => readable null)
    · rw [if_neg null, if_neg stays]
      exact (lockstep_some (setInt_runs runs _ _)).congr (iff_of_true trivial null)

theorem lockstep_step64 (runs : vm.RunsUnchecked) {opcode : Opcode64} (noEscape : opcode ≠ .lda) :
    Lockstep exiting (vm.step64 inst pc opcode) (vm.interpreter.step64 inst pc opcode)
      (vm.machine.Allowed64 inst pc opcode) := by
  cases opcode with simp only [PCodeVM.step64, PCodeInterpreter.step64]
  | ldw | lduw =>
    exact lockstep_load runs (readsAlike_U32 runs) fun _ =>
      lockstep_some (setInt_runs (setInt_runs runs _ _) _ _)
  | ldh | lduh =>
    exact lockstep_load runs (readsAlike_U16 runs) fun _ =>
      lockstep_some (setInt_runs (setInt_runs runs _ _) _ _)
  | ldb | ldub =>
    exact lockstep_load runs (readsAlike_U8 runs) fun _ =>
      lockstep_some (setInt_runs (setInt_runs runs _ _) _ _)
  | ldx =>
    exact lockstep_load runs (readsAlike_U64 runs) fun _ =>
      lockstep_some (setInt_runs (setInt_runs runs _ _) _ _)
  | ldf =>
    exact lockstep_load runs (readsAlike_U32 runs) fun _ =>
      lockstep_some (setInt_runs (setFloat_runs runs _ _) _ _)
  | ldd =>
    exact lockstep_load runs (readsAlike_U64 runs) fun _ =>
      lockstep_some (setInt_runs (setDouble_runs runs _ _) _ _)
  | stw | sth | stx | stf | std | stb => exact lockstep_store runs
  | movc | addc =>
    exact readsAlike_U32 runs fun _ => lockstep_some (setInt_runs (setInt_runs runs _ _) _ _)
  | movfc =>
    exact readsAlike_U32 runs fun _ => lockstep_some (setInt_runs (setFloat_runs runs _ _) _ _)
  | bra => exact readsAlike_U32 runs fun _ => lockstep_some (setInt_runs runs _ _)
  | bz => exact lockstep_branch runs fun vm => vm.iregs (dest inst) = 0
  | bnz => exact lockstep_branch runs fun vm => vm.iregs (dest inst) ≠ 0
  | lda => exact absurd rfl noEscape

/-- The offset of a call is read once the return address has been stored. -/
theorem lockstep_callOffset (runs : vm.RunsUnchecked) {next : BitVec 64 → PCodeVM → Option PCodeVM}
    {otherNext : BitVec 64 → Option PCodeInterpreter}
    (goesOn : ∀ value, Lockstep exiting (next value vm.forgetBelowSp) (otherNext value) True) :
    Lockstep exiting (vm.forgetBelowSp.readU64 pc next) (vm.interpreter.readU64 pc >>= otherNext)
      (pc ≠ 0) := by
  rw [← interpreter_forgetBelowSp]
  exact readsAlike_U64 (runs_forgetBelowSp runs) goesOn

theorem lockstep_step96 (runs : vm.RunsUnchecked) {opcode : Opcode96} :
    Lockstep exiting (vm.step96 inst pc opcode) (vm.interpreter.step96 inst pc opcode)
      (vm.machine.Allowed96 pc opcode) := by
  cases opcode with simp only [PCodeVM.step96, PCodeInterpreter.step96]
  | movdc =>
    exact readsAlike_U64 runs fun _ => lockstep_some (setInt_runs (setDouble_runs runs _ _) _ _)
  | movxc | adr =>
    exact readsAlike_U64 runs fun _ => lockstep_some (setInt_runs (setInt_runs runs _ _) _ _)
  | jmp => exact readsAlike_U64 runs fun _ => lockstep_some (setInt_runs runs _ _)
  | call =>
    apply lockstep_write (setInt_runs runs _ _)
    intro stored runs _
    apply lockstep_callOffset runs
    intro offset
    exact lockstep_callTarget runs fun machine => offset + machine.iregs pcReg + 8
  | cjmp =>
    apply lockstep_readU64 runs
    apply readsAlike_U64 runs
    intro target
    exact lockstep_some (setInt_runs runs _ _)

/-! ## Steps -/

/-- The virtual machine once it has counted the step and fetched the instruction. -/
def PCodeVM.fetched (vm : PCodeVM) : PCodeVM :=
  { vm with steps := vm.steps + 1 }.advance 4

/-- The instruction of both is the same. -/
theorem lockstep_execute (runs : vm.RunsUnchecked) (noEscape : ¬vm.machine.AtEscape) :
    Lockstep vm.machine.Stops
      (match decode vm.machine.instruction with
        | .short (some opcode) => vm.fetched.step32 floats escape vm.machine.instruction opcode
        | .medium (some opcode) =>
          vm.fetched.step64 vm.machine.instruction (vm.iregs pcReg + 4) opcode
        | .long (some opcode) =>
          vm.fetched.step96 vm.machine.instruction (vm.iregs pcReg + 4) opcode
        | .short none | .medium none | .long none => vm.fetched.stopWith escape 0)
      (match decode vm.machine.instruction with
        | .short (some opcode) =>
          vm.fetched.interpreter.step32 floats hostEscape vm.machine.instruction opcode
        | .medium (some opcode) =>
          vm.fetched.interpreter.step64 vm.machine.instruction (vm.iregs pcReg + 4) opcode
        | .long (some opcode) =>
          vm.fetched.interpreter.step96 vm.machine.instruction (vm.iregs pcReg + 4) opcode
        | .short none | .medium none | .long none =>
          some vm.fetched.interpreter.dumpStateAndExit)
      (match decode vm.machine.instruction with
        | .short (some opcode) =>
          vm.fetched.machine.Allowed32 floats vm.machine.instruction opcode
        | .medium (some opcode) =>
          vm.fetched.machine.Allowed64 vm.machine.instruction (vm.iregs pcReg + 4) opcode
        | .long (some opcode) => vm.fetched.machine.Allowed96 (vm.iregs pcReg + 4) opcode
        | .short none | .medium none | .long none => True) := by
  have fetched : vm.fetched.RunsUnchecked := ⟨runs.running, runs.unchecked, runs.stateless⟩
  rw [Machine.Stops]
  cases decoded : decode vm.machine.instruction with
  | short opcode =>
    cases opcode with
    | none => exact lockstep_stopWith trivial 0 escape.stops_undefined
    | some opcode =>
      apply lockstep_step32 fetched
      intro isEscape
      exact noEscape (.inl (by rw [decoded, isEscape]))
  | medium opcode =>
    cases opcode with
    | none => exact lockstep_stopWith trivial 0 escape.stops_undefined
    | some opcode =>
      apply lockstep_step64 fetched
      intro isEscape
      exact noEscape (.inr (by rw [decoded, isEscape]))
  | long opcode =>
    cases opcode with
    | none => exact lockstep_stopWith trivial 0 escape.stops_undefined
    | some opcode => exact lockstep_step96 fetched

/-- Without its limit reached, the virtual machine takes a step as the other does. -/
theorem step_withinLimit (runs : vm.RunsUnchecked) (noEscape : ¬vm.machine.AtEscape)
    (limit : vm.WithinLimit) :
    Lockstep vm.machine.Stops (vm.step floats escape) (vm.interpreter.step floats hostEscape)
      (vm.machine.Allowed floats) := by
  have notReached : ¬(0 ≤ vm.maxSteps ∧ vm.maxSteps ≤ vm.steps) := by
    intro reached
    cases limit with
    | inl unlimited => exact absurd reached.1 (Int.not_le.mpr unlimited)
    | inr left => exact absurd reached.2 (Int.not_le.mpr left)
  have counted : { vm with steps := vm.steps + 1 }.RunsUnchecked :=
    ⟨runs.running, runs.unchecked, runs.stateless⟩
  rw [PCodeVM.step, if_neg (not_not.mpr runs.running), if_neg notReached]
  exact lockstep_readU32 counted (lockstep_execute runs noEscape)

/-- A readable instruction that stops both has nothing else that it needs. -/
theorem allowed_of_stops (readable : vm.machine.iregs pcReg ≠ 0) (stops : vm.machine.Stops) :
    vm.machine.Allowed floats := by
  rw [Machine.Stops] at stops
  apply And.intro readable
  cases decoded : decode vm.machine.instruction with simp only [decoded] at stops ⊢
  | short opcode =>
    cases opcode with
    | none => trivial
    | some opcode =>
      cases opcode with
      | div => exact fun nonzero => absurd stops nonzero
      | divu => trivial
      | _ => exact stops.elim
  | medium opcode =>
    cases opcode with
    | none => trivial
    | some opcode => exact stops.elim
  | long opcode =>
    cases opcode with
    | none => trivial
    | some opcode => exact stops.elim

theorem step_of_stops (readable : vm.machine.iregs pcReg ≠ 0) (stops : vm.machine.Stops) :
    vm.interpreter.step floats hostEscape = some (vm.interpreter.advance 4).dumpStateAndExit := by
  have fetches : vm.interpreter.readU32 (vm.interpreter.iregs pcReg) =
      some vm.machine.instruction := if_neg readable
  rw [Machine.Stops] at stops
  rw [PCodeInterpreter.step, fetches]
  change (match decode vm.machine.instruction with
    | .short (some opcode) => _
    | .medium (some opcode) => _
    | .long (some opcode) => _
    | .short none | .medium none | .long none => _) = _
  cases decoded : decode vm.machine.instruction with simp only [decoded] at stops ⊢
  | short opcode =>
    cases opcode with
    | none => rfl
    | some opcode =>
      cases opcode with
      | div | divu => exact if_pos stops
      | _ => exact stops.elim
  | medium opcode =>
    cases opcode with
    | none => rfl
    | some opcode => exact stops.elim
  | long opcode =>
    cases opcode with
    | none => rfl
    | some opcode => exact stops.elim

/-- At its limit the virtual machine stops, so that the steps agree when the other
interpreter stops as well. -/
theorem agree_atLimit (runs : vm.RunsUnchecked) (noEscape : ¬vm.machine.AtEscape) :
    StepsAgree (some { vm with status := .stepLimit }) (vm.interpreter.step floats hostEscape) ↔
      vm.machine.Allowed floats ∧ vm.machine.Stops := by
  constructor
  · intro agree
    have limitless : PCodeVM.WithinLimit { vm with maxSteps := -1 } :=
      .inl (Int.negSucc_lt_zero 0)
    have unlimited := @step_withinLimit floats defaultEscape hostEscape
      { vm with maxSteps := -1 } ⟨runs.running, runs.unchecked, runs.stateless⟩ noEscape limitless
    cases other : vm.interpreter.step floats hostEscape with rw [other] at agree
    | none => exact agree.elim
    | some final =>
      cases agree with
      | inl goOn => exact PCodeVMStatus.noConfusion goOn.1
      | inr stop =>
        have stops := unlimited.exits final other stop.2
        apply And.intro _ stops
        apply allowed_of_stops _ stops
        intro null
        have unreadable : vm.interpreter.readU32 (vm.interpreter.iregs pcReg) = none :=
          if_pos null
        rw [PCodeInterpreter.step, unreadable] at other
        cases other
  · intro ⟨allowed, stops⟩
    rw [step_of_stops allowed.1 stops]
    exact .inr ⟨PCodeVMStatus.noConfusion, rfl⟩

theorem step_atLimit (runs : vm.RunsUnchecked) (reached : ¬vm.WithinLimit) :
    vm.step floats escape = some { vm with status := .stepLimit } := by
  rw [PCodeVM.WithinLimit, not_or, Int.not_lt, Int.not_lt] at reached
  rw [PCodeVM.step, if_neg (not_not.mpr runs.running), if_pos reached]

/-- A step of both. -/
theorem lockstep_step (runs : vm.RunsUnchecked) (noEscape : ¬vm.machine.AtEscape) :
    Lockstep True (vm.step floats escape) (vm.interpreter.step floats hostEscape)
      (vm.Allowed floats) := by
  by_cases limit : vm.WithinLimit
  · have step : Lockstep vm.machine.Stops (vm.step floats escape)
        (vm.interpreter.step floats hostEscape) (vm.machine.Allowed floats) :=
      step_withinLimit runs noEscape limit
    exact ⟨step.agree.trans (and_iff_left (.inl limit)).symm, step.runs, step.same,
      fun _ _ _ => trivial⟩
  · rw [step_atLimit runs limit]
    constructor
    · exact (agree_atLimit runs noEscape).trans (and_congr_right' (or_iff_right limit).symm)
    · intro _ isVm running
      cases isVm
      cases running
    · intro _ _ isVm _ _ running
      cases isVm
      cases running
    · exact fun _ _ _ => trivial

end Lockstep

/-- The two interpreters agree for as long as each step has what it needs. -/
theorem agreeFor_iff_allowedFor (floats : HostFloats) (escape : PCodeVMEscapeHandler)
    (hostEscape : BitVec 32 → PCodeInterpreter → Option PCodeInterpreter) (steps : Nat)
    (vm : PCodeVM) (runs : vm.RunsUnchecked) :
    AgreeFor floats escape hostEscape steps vm vm.interpreter ↔
      AllowedFor floats escape steps vm := by
  induction steps generalizing vm with
  | zero => exact Iff.rfl
  | succ steps hypothesis =>
    by_cases noEscape : vm.machine.AtEscape
    · exact iff_of_true (.inl noEscape) (.inl noEscape)
    · have step : Lockstep True (vm.step floats escape)
          (vm.interpreter.step floats hostEscape) (vm.Allowed floats) :=
        lockstep_step runs noEscape
      rw [AgreeFor, AllowedFor, or_iff_right noEscape, or_iff_right noEscape, step.agree]
      apply and_congr_right
      intro allowed
      have agree := step.agree.mpr allowed
      constructor
      · intro agreeing next isNext running
        cases other : vm.interpreter.step floats hostEscape with
        | none =>
          rw [isNext, other] at agree
          exact agree.elim
        | some otherNext =>
          have agreed := agreeing next otherNext isNext other running
          rw [step.same next otherNext isNext other agree running] at agreed
          exact (hypothesis next (step.runs next isNext running)).mp agreed
      · intro allowing next otherNext isNext other running
        rw [step.same next otherNext isNext other agree running]
        exact (hypothesis next (step.runs next isNext running)).mpr (allowing next isNext running)

/-- Floating operations that the machine below makes no use of. -/
def zeroFloatOps (width : Nat) : FloatOps width where
  add := fun _ _ => 0
  sub := fun _ _ => 0
  mul := fun _ _ => 0
  div := fun _ _ => 0
  neg := fun a => a
  eq := fun a b => a == b
  lt := fun _ _ => false
  le := fun a b => a == b
  ofInt := fun _ => 0
  ofUInt := fun _ => 0
  toInt := fun _ => some 0
  toUInt := fun _ => some 0

def zeroFloats : HostFloats where
  single := zeroFloatOps 32
  double := zeroFloatOps 64
  widen := fun _ => 0
  narrow := fun _ => 0

/-- A machine at an instruction of its opcode and three zero registers. -/
def machineAt (opcode : BitVec 8) : PCodeVM where
  machine :=
    { iregs := fun register => if register = pcReg then 8 else 0
      fregs := fun _ => 0
      dregs := fun _ => 0
      memory := fun address => if address = 11 then opcode else 0 }
  stack := 0
  stackSize := 0
  steps := 0
  maxSteps := -1
  status := .running
  checkedMemory := false
  memoryRegions := []
  stackEndedLow := BitVec.allOnes 64
  readAfterLifetime := false
  failedReadState := 0

theorem machineAt_runs (opcode : BitVec 8) : (machineAt opcode).RunsUnchecked :=
  ⟨rfl, rfl, fun _ isRegion => absurd isRegion List.not_mem_nil⟩

/-- `add` is taken alike. -/
theorem agreeFor_add :
    AgreeFor zeroFloats defaultEscape (fun _ _ => none) 1 (machineAt 0)
      (machineAt 0).interpreter := by
  apply (agreeFor_iff_allowedFor _ _ _ 1 (machineAt 0) (machineAt_runs 0)).mpr
  exact .inr ⟨⟨⟨by decide, trivial⟩, .inl (.inl (by decide))⟩, fun _ _ _ => trivial⟩

/-- `mod` by zero stops the virtual machine, and the other interpreter evaluates it. -/
theorem not_agreeFor_mod_zero :
    (machineAt 13).RunsUnchecked ∧
      ¬AgreeFor zeroFloats defaultEscape (fun _ _ => none) 1 (machineAt 13)
        (machineAt 13).interpreter := by
  apply And.intro (machineAt_runs 13)
  have atMod : decode (machineAt 13).machine.instruction = .short (some .mod) := by decide
  intro agree
  cases agree with
  | inl atEscape =>
    rw [Machine.AtEscape, atMod] at atEscape
    exact absurd atEscape (by decide)
  | inr agree => exact agree.1.elim

end DaveCC.PCode
