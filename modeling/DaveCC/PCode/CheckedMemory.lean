import DaveCC.PCode.Vm

/-!
# Checked memory

What the checks of the virtual machine promise for one memory access, and the accesses for
which they do not.
-/

namespace DaveCC.PCode

open PCodeVMMemoryRegion

/-- Some bytes lie in a region. -/
structure PCodeVMMemoryRegion.Holds (region : PCodeVMMemoryRegion) (address : Word) (size : Nat) :
    Prop where
  start_le : region.start.toNat ≤ address.toNat
  le_stop : address.toNat + size ≤ region.start.toNat + region.size.toNat

/-- Some bytes of a region are in a valid state. -/
def PCodeVMMemoryRegion.ValidAt (region : PCodeVMMemoryRegion) (address : Word) (size : Nat) : Prop :=
  ∀ states, region.states = some states →
    ∀ byte < size, states[(address - region.start).toNat + byte]? = some validState

variable {region : PCodeVMMemoryRegion}

theorem PCodeVMMemoryRegion.holds_of_contains {address size : Word} {write : Bool}
    (contains : region.contains address size write = true) : region.Holds address size.toNat := by
  rw [PCodeVMMemoryRegion.contains] at contains
  split at contains
  · exact absurd contains Bool.false_ne_true
  split at contains
  · next isZero =>
      simp only [Bool.and_eq_true, decide_eq_true_eq] at contains
      have ⟨above, below⟩ := contains
      constructor
      · exact BitVec.le_def.mp above
      · rw [isZero]
        bv_omega
  split at contains
  · exact absurd contains Bool.false_ne_true
  · next guards =>
      simp only [Bool.or_eq_true, decide_eq_true_eq, not_or] at guards contains
      have top : (BitVec.allOnes 64).toNat = 18446744073709551615 := rfl
      constructor
      · bv_omega
      · bv_omega

theorem PCodeVMMemoryRegion.writable_of_contains {address size : Word}
    (contains : region.contains address size true = true) : region.writable = true := by
  rw [PCodeVMMemoryRegion.contains, Bool.true_and] at contains
  cases writable : region.writable with
  | true => rfl
  | false =>
    rw [writable, Bool.not_false, if_pos rfl] at contains
    exact absurd contains Bool.false_ne_true

namespace PCodeVM

/-- What an address can lie in: the stack, or a region by its place. -/
inductive Object where
  | stack
  | region (index : Nat)

def ObjectAt (vm : PCodeVM) (object : Object) (address : Word) : Prop :=
  match object with
  | .stack =>
    vm.stack ≠ 0 ∧ vm.stack.toNat ≤ address.toNat ∧
      address.toNat < vm.stack.toNat + vm.stackSize.toNat
  | .region index => ∃ region, vm.memoryRegions[index]? = some region ∧ region.Holds address 1

/-- An address names an object. -/
def Named (vm : PCodeVM) (address : Word) : Prop :=
  ∃ object, vm.ObjectAt object address

def SameObject (vm : PCodeVM) (address pointer : Word) : Prop :=
  ∃ object, vm.ObjectAt object address ∧ vm.ObjectAt object pointer

/-- Bytes of the stack at the stack pointer or above. -/
structure LiveStack (vm : PCodeVM) (address : Word) (size : Nat) : Prop where
  stack_le : vm.stack.toNat ≤ address.toNat
  sp_le : (vm.iregs spReg).toNat ≤ address.toNat
  le_stop : address.toNat + size ≤ vm.stack.toNat + vm.stackSize.toNat

/-- Bytes of the live stack, or of one region where they are valid to be read or writable. -/
def Accessible (vm : PCodeVM) (address : Word) (size : Nat) (write : Bool) : Prop :=
  vm.LiveStack address size ∨
    ∃ region ∈ vm.memoryRegions, region.Holds address size ∧
      if write then region.writable = true else region.ValidAt address size

/-- What checked memory promises for an access. -/
structure Confined (vm : PCodeVM) (address size : Word) (write : Bool) : Prop where
  accessible : ∀ pointer, (vm.accessPointer address size write).1 = some pointer →
    pointer ≠ 0 ∧ vm.Accessible pointer size.toNat write
  sameObject : ∀ pointer, (vm.accessPointer address size write).1 = some pointer →
    vm.Named address → vm.SameObject address pointer
  refused : (vm.accessPointer address size write).1 = none →
    (vm.accessPointer address size write).2.status =
        (if write then .invalidWrite else .invalidRead) ∧
      (vm.accessPointer address size write).2.machine = vm.machine ∧
      (vm.accessPointer address size write).2.memoryRegions = vm.memoryRegions

/-- What runs keep of a machine with checked memory: no region is at address zero, and each state
array has a state for each byte. -/
structure Checked (vm : PCodeVM) : Prop where
  checkedMemory : vm.checkedMemory = true
  start_ne : ∀ region ∈ vm.memoryRegions, region.start ≠ 0
  states : ∀ region ∈ vm.memoryRegions, ∀ states, region.states = some states →
    states.length = region.size.toNat

section Check

variable {vm : PCodeVM} {address size pointer : Word} {write : Bool}

/-- When `CheckMemoryAccess` lets an access pass. -/
def allows (vm : PCodeVM) (address size : Word) (write : Bool) : Bool :=
  if !vm.checkedMemory then true
  else if vm.stack ≠ 0 ∧ vm.stackSize ≠ 0 ∧ vm.stack ≤ address ∧
      address < vm.stack + vm.stackSize then
    !(BitVec.allOnes 64 - address < size) &&
      (vm.iregs spReg ≤ address && address + size ≤ vm.stack + vm.stackSize)
  else vm.memoryRegions.any fun region => region.contains address size write

theorem checkMemoryAccess_eq :
    vm.checkMemoryAccess address size write =
      if vm.allows address size write then (true, vm) else (false, vm.refuse write) := by
  rw [allows, checkMemoryAccess]
  split
  · rfl
  split
  · split
    · next wraps => simp only [wraps, Bool.not_true, Bool.false_and, Bool.false_eq_true, if_false,
        decide_true]
    · next fits =>
        split
        · next inside => simp only [fits, inside.1, inside.2, decide_true, decide_false, Bool.not_false,
            Bool.and_self, if_true]
        · next outside =>
            simp [outside]
  · rfl

/-- What is allowed lies in the live stack or in a region. -/
theorem contains_of_allows (checked : vm.Checked) (allowed : vm.allows address size write = true) :
    vm.LiveStack address size.toNat ∨
      ∃ region ∈ vm.memoryRegions, region.contains address size write = true := by
  rw [allows, checked.checkedMemory, Bool.not_true, if_neg Bool.false_ne_true] at allowed
  split at allowed
  · next inStack =>
      simp only [Bool.and_eq_true, Bool.not_eq_true', decide_eq_false_iff_not,
        decide_eq_true_eq] at allowed
      have ⟨fits, aboveSp, below⟩ := allowed
      have top : (BitVec.allOnes 64).toNat = 18446744073709551615 := rfl
      have ⟨_, _, aboveStack, belowStop⟩ := inStack
      exact .inl ⟨aboveStack, aboveSp, by bv_omega⟩
  · exact .inr (List.any_eq_true.mp allowed)

theorem ne_zero_of_allows (checked : vm.Checked) (allowed : vm.allows address size write = true) :
    address ≠ 0 := by
  intro isZero
  rw [allows, checked.checkedMemory, Bool.not_true, if_neg Bool.false_ne_true] at allowed
  split at allowed
  · next inStack =>
      have ⟨stack_ne, _, aboveStack, _⟩ := inStack
      rw [isZero] at aboveStack
      exact stack_ne (BitVec.le_zero_iff.mp aboveStack)
  · have ⟨region, isIn, contains⟩ := List.any_eq_true.mp allowed
    have holds := (holds_of_contains contains).start_le
    rw [isZero] at holds
    exact checked.start_ne region isIn (BitVec.le_zero_iff.mp (BitVec.le_def.mpr holds))

/-- When `AccessPointer` finds the states of the bytes as it wants them. -/
def statesAllow (vm : PCodeVM) (address size : Word) (write : Bool) : Bool :=
  write ||
    match vm.statefulRegion address size write with
    | none => true
    | some (_, region, states) =>
      ((states.drop (address - region.start).toNat).take size.toNat).all (· == validState)

theorem accessStates_read_allowed (allowed : vm.statesAllow address size false = true) :
    vm.accessStates address size false = (some address, vm) := by
  rw [statesAllow, Bool.false_or] at allowed
  rw [accessStates]
  split
  · rfl
  · next index region states found =>
      rw [found] at allowed
      simp only [Bool.false_eq_true, if_false]
      have noInvalid : ((states.drop (address - region.start).toNat).take size.toNat).find?
          (fun state => state != validState) = none := by
        apply List.find?_eq_none.mpr
        intro state isIn invalid
        exact bne_iff_ne.mp invalid (beq_iff_eq.mp (List.all_eq_true.mp allowed state isIn))
      rw [noInvalid]

/-- A read of bytes that are not valid is refused and changes nothing but what it reports. -/
theorem accessStates_read_refused (refused : vm.statesAllow address size false = false) :
    (vm.accessStates address size false).1 = none ∧
      (vm.accessStates address size false).2.status = .invalidRead ∧
      (vm.accessStates address size false).2.machine = vm.machine ∧
      (vm.accessStates address size false).2.memoryRegions = vm.memoryRegions := by
  rw [statesAllow, Bool.false_or] at refused
  rw [accessStates]
  split
  · next none =>
      rw [none] at refused
      exact absurd refused.symm Bool.false_ne_true
  · next index region states found =>
      rw [found] at refused
      have ⟨state, isIn, invalid⟩ := List.all_eq_false.mp refused
      have someInvalid : (((states.drop (address - region.start).toNat).take size.toNat).find?
          (fun state => state != validState)).isSome = true :=
        List.find?_isSome.mpr ⟨state, isIn, bne_iff_ne.mpr fun same => invalid (beq_iff_eq.mpr same)⟩
      have ⟨found, isFound⟩ := Option.isSome_iff_exists.mp someInvalid
      simp only [Bool.false_eq_true, if_false, isFound]
      exact ⟨trivial, rfl, rfl, rfl⟩

theorem accessStates_write : (vm.accessStates address size true).1 = some address := by
  rw [accessStates]
  split
  · rfl
  · rfl

/-- The last stateful region that contains an access is a region that does. -/
theorem statefulRegion_eq_some {index : Nat} {region : PCodeVMMemoryRegion}
    {states : List (BitVec 8)}
    (found : vm.statefulRegion address size write = some (index, region, states)) :
    vm.memoryRegions[index]? = some region ∧ region.states = some states ∧
      region.contains address size write = true := by
  have ⟨pair, isIn, isFound⟩ := List.exists_of_findSome?_eq_some found
  have isAt := List.mem_zipIdx_iff_getElem?.mp (List.mem_reverse.mp isIn)
  cases hasStates : pair.1.states with
  | none => simp only [hasStates, reduceCtorEq] at isFound
  | some states' =>
    simp only [hasStates] at isFound
    split at isFound
    · next contains =>
        cases isFound
        exact ⟨isAt, hasStates, contains⟩
    · cases isFound

/-- Without one, no region that contains the access has states. -/
theorem statefulRegion_eq_none (missing : vm.statefulRegion address size write = none)
    {region : PCodeVMMemoryRegion} (isIn : region ∈ vm.memoryRegions)
    (contains : region.contains address size write = true) : region.states = none := by
  have ⟨index, isAt⟩ := List.mem_iff_getElem?.mp isIn
  have notFound := List.findSome?_eq_none_iff.mp missing (region, index)
    (List.mem_reverse.mpr (List.mem_zipIdx_iff_getElem?.mpr isAt))
  cases hasStates : region.states with
  | none => rfl
  | some states => simp only [hasStates, contains, if_true, reduceCtorEq] at notFound

/-- An access that is allowed, and whose states are, is to bytes that are accessible. -/
theorem accessible_of_allows (checked : vm.Checked) (allowed : vm.allows address size write = true)
    (statesAllowed : vm.statesAllow address size write = true) :
    vm.Accessible address size.toNat write := by
  cases contains_of_allows checked allowed with
  | inl live => exact .inl live
  | inr contained =>
  have ⟨region, isIn, contains⟩ := contained
  cases write with
  | true =>
    exact .inr ⟨region, isIn, holds_of_contains contains, writable_of_contains contains⟩
  | false =>
    rw [statesAllow, Bool.false_or] at statesAllowed
    cases found : vm.statefulRegion address size false with
    | none =>
      refine .inr ⟨region, isIn, holds_of_contains contains, ?_⟩
      intro states hasStates
      rw [statefulRegion_eq_none found isIn contains] at hasStates
      cases hasStates
    | some stateful =>
      have ⟨index, region, states⟩ := stateful
      rw [found] at statesAllowed
      have ⟨isAt, hasStates, contains⟩ := statefulRegion_eq_some found
      have isIn := List.mem_of_getElem? isAt
      have holds := holds_of_contains contains
      refine .inr ⟨region, isIn, holds, ?_⟩
      intro states' hasStates' byte inside
      cases hasStates.symm.trans hasStates'
      have offset : (address - region.start).toNat = address.toNat - region.start.toNat :=
        BitVec.toNat_sub_of_le (BitVec.le_def.mpr holds.start_le)
      have place : (address - region.start).toNat + byte < states.length := by
        rw [checked.states region isIn states hasStates, offset]
        have := holds.start_le
        have := holds.le_stop
        omega
      rw [List.getElem?_eq_getElem place]
      congr 1
      apply beq_iff_eq.mp
      apply List.all_eq_true.mp statesAllowed
      apply List.mem_of_getElem?
      rw [List.getElem?_take_of_lt inside, List.getElem?_drop, List.getElem?_eq_getElem place]

/-! ## An access -/

/-- `AccessPointer`: an access that is refused is tried again at a rebuilt address. -/
theorem accessPointer_eq :
    vm.accessPointer address size write =
      if vm.allows address size write then vm.accessStates address size write
      else
        match vm.normalizeCheckedAddress address size write with
        | none => (none, vm.refuse write)
        | some normalized =>
          if vm.allows normalized size write then
            { vm with status := .running }.accessStates normalized size write
          else (none, vm.refuse write) := by
  rw [accessPointer, checkMemoryAccess_eq]
  split
  · rfl
  · have sameNormal : (vm.refuse write).normalizeCheckedAddress address size write =
        vm.normalizeCheckedAddress address size write := rfl
    rw [if_neg Bool.false_ne_true, sameNormal]
    cases vm.normalizeCheckedAddress address size write with
    | none => rfl
    | some normalized =>
      have sameAllowed : (vm.refuse write).allows normalized size write =
          vm.allows normalized size write := rfl
      dsimp only
      rw [checkMemoryAccess_eq, sameAllowed]
      cases vm.allows normalized size write with
      | true => rfl
      | false => rfl

/-- The pointer that an access gets. -/
inductive Points (vm : PCodeVM) (address size : Word) (write : Bool) : Word → Prop where
  | direct (allowed : vm.allows address size write = true)
      (states : vm.statesAllow address size write = true) : Points vm address size write address
  | rebuilt {normalized : Word} (refused : vm.allows address size write = false)
      (normalizes : vm.normalizeCheckedAddress address size write = some normalized)
      (allowed : vm.allows normalized size write = true)
      (states : vm.statesAllow normalized size write = true) :
      Points vm address size write normalized

theorem accessStates_fst :
    (vm.accessStates address size write).1 =
      if vm.statesAllow address size write then some address else none := by
  cases write with
  | true =>
    rw [accessStates_write, statesAllow, Bool.true_or]
    rfl
  | false =>
    cases allowed : vm.statesAllow address size false with
    | true =>
      rw [accessStates_read_allowed allowed]
      rfl
    | false => exact (accessStates_read_refused allowed).1

theorem points_iff :
    (vm.accessPointer address size write).1 = some pointer ↔ vm.Points address size write pointer := by
  rw [accessPointer_eq]
  constructor
  · intro points
    split at points
    · next allowed =>
        rw [accessStates_fst] at points
        split at points
        · next states =>
            cases points
            exact .direct allowed states
        · cases points
    · next refused =>
        cases normalizes : vm.normalizeCheckedAddress address size write with
        | none =>
          rw [normalizes] at points
          cases points
        | some normalized =>
          rw [normalizes] at points
          dsimp only at points
          split at points
          · next allowed =>
              rw [accessStates_fst] at points
              split at points
              · next states =>
                  cases points
                  exact .rebuilt (Bool.eq_false_of_not_eq_true refused) normalizes allowed states
              · cases points
          · cases points
  · intro points
    cases points with
    | direct allowed states => rw [if_pos allowed, accessStates_fst, if_pos states]
    | rebuilt refused normalizes allowed states =>
      have states' : ({ vm with status := .running } : PCodeVM).statesAllow pointer size write = true :=
        states
      rw [if_neg (ne_true_of_eq_false refused), normalizes]
      dsimp only
      rw [if_pos allowed, accessStates_fst, if_pos states']

/-- An access that fails leaves a status and nothing else. -/
theorem refused_of_none (fails : (vm.accessPointer address size write).1 = none) :
    (vm.accessPointer address size write).2.status =
        (if write then .invalidWrite else .invalidRead) ∧
      (vm.accessPointer address size write).2.machine = vm.machine ∧
      (vm.accessPointer address size write).2.memoryRegions = vm.memoryRegions := by
  have ofStates {other : PCodeVM} {place : Word} (machine : other.machine = vm.machine)
      (regions : other.memoryRegions = vm.memoryRegions)
      (fails : (other.accessStates place size write).1 = none) :
      (other.accessStates place size write).2.status =
          (if write then .invalidWrite else .invalidRead) ∧
        (other.accessStates place size write).2.machine = vm.machine ∧
        (other.accessStates place size write).2.memoryRegions = vm.memoryRegions := by
    cases write with
    | true =>
      rw [accessStates_write] at fails
      cases fails
    | false =>
      have refused : other.statesAllow place size false = false := by
        rw [accessStates_fst] at fails
        apply Bool.eq_false_of_not_eq_true
        intro allowed
        rw [if_pos allowed] at fails
        cases fails
      have ⟨_, status, sameMachine, sameRegions⟩ := accessStates_read_refused refused
      exact ⟨status, sameMachine.trans machine, sameRegions.trans regions⟩
  rw [accessPointer_eq] at fails ⊢
  split
  · next allowed =>
      rw [if_pos allowed] at fails
      exact ofStates rfl rfl fails
  · next refused =>
      rw [if_neg refused] at fails
      cases normalizes : vm.normalizeCheckedAddress address size write with
      | none => exact ⟨rfl, rfl, rfl⟩
      | some normalized =>
        rw [normalizes] at fails
        dsimp only at fails ⊢
        split
        · next allowed =>
            rw [if_pos allowed] at fails
            exact ofStates rfl rfl fails
        · exact ⟨rfl, rfl, rfl⟩

/-- An access whose address names an object, where it is refused, and whose rebuilt address is
allowed in another object. -/
structure Misdirected (vm : PCodeVM) (address size : Word) (write : Bool) : Prop where
  named : vm.Named address
  refused : vm.allows address size write = false
  elsewhere : ∃ normalized, vm.normalizeCheckedAddress address size write = some normalized ∧
    vm.allows normalized size write = true ∧ vm.statesAllow normalized size write = true ∧
    ¬vm.SameObject address normalized

/-- An access is confined unless it is misdirected. -/
theorem confined_iff_not_misdirected (checked : vm.Checked) :
    vm.Confined address size write ↔ ¬vm.Misdirected address size write := by
  constructor
  · intro confined misdirected
    have ⟨normalized, normalizes, allowed, states, apart⟩ := misdirected.elsewhere
    have points := points_iff.mpr (.rebuilt misdirected.refused normalizes allowed states)
    exact apart (confined.sameObject normalized points misdirected.named)
  · intro notMisdirected
    constructor
    · intro pointer points
      cases points_iff.mp points with
      | direct allowed states =>
        exact ⟨ne_zero_of_allows checked allowed, accessible_of_allows checked allowed states⟩
      | rebuilt _ _ allowed states =>
        exact ⟨ne_zero_of_allows checked allowed, accessible_of_allows checked allowed states⟩
    · intro pointer points named
      cases points_iff.mp points with
      | direct _ _ =>
        have ⟨object, isAt⟩ := named
        exact ⟨object, isAt, isAt⟩
      | rebuilt refused normalizes allowed states =>
        by_contra apart
        exact notMisdirected ⟨named, refused, pointer, normalizes, allowed, states, apart⟩
    · exact refused_of_none

end Check

end PCodeVM

end DaveCC.PCode
