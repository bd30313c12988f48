import DaveCC.Loader.LifecycleOrder

/-!
# Runs of phases

A state that agrees with the events of its run stays so through every call of a phase, and
the events follow the dependencies, as long as no call begins in a state that an
interrupted call has left in the middle of an array or of the order.
-/

namespace DaveCC.Loading

open DaveCC.Container DaveCC.Graph DaveCC.Loop

/-- Every image whose functions were called has completed the phase. -/
def Uninterrupted (phase : LifecyclePhase) (events : List LifecycleEvent) : Prop :=
  ∀ call ∈ callsIn phase events, call.1 ∈ completedIn phase events

instance (phase : LifecyclePhase) (events : List LifecycleEvent) :
    Decidable (Uninterrupted phase events) :=
  inferInstanceAs (Decidable (∀ call ∈ callsIn phase events, call.1 ∈ completedIn phase events))

variable {loader : Loader} {process next : Process} {phase : LifecyclePhase}
  {lib : Option ImageId} {index : Nat}

/-- The flags and the list of completed images are those of the events. -/
structure Consistent (loader : Loader) (process : Process) : Prop where
  ordering : loader.Ordering process.lifecycle
  marked : ∀ entry ∈ process.lifecycle.initOrder, ∀ phase,
    entry.phaseDone phase = true ↔ entry.lib ∈ completedIn phase process.events
  placed : ∀ phase, completedIn phase process.events ⊆ process.lifecycle.libs
  successful : process.lifecycle.successfulInit = completedIn .init process.events
  distinct : (completedIn .init process.events).Nodup
  follows : FollowsDependencies loader.needs process.events
  finalised : ∀ earlier later, [earlier, later].Sublist (completedIn .init process.events) →
    (∃ index, (earlier, index) ∈ callsIn .fini process.events) →
    later ∈ completedIn .fini process.events

/-- The guest does not matter. -/
theorem Consistent.congr (consistent : Consistent loader process)
    (lifecycle : next.lifecycle = process.lifecycle) (events : next.events = process.events) :
    Consistent loader next := by
  obtain ⟨lifecycle', guest', events'⟩ := next
  cases lifecycle
  cases events
  exact ⟨consistent.ordering, consistent.marked, consistent.placed, consistent.successful,
    consistent.distinct, consistent.follows, consistent.finalised⟩

/-- A call of a function. -/
theorem Consistent.call (consistent : Consistent loader process)
    (lifecycle : next.lifecycle = process.lifecycle)
    (events : next.events = process.events ++ [.called phase lib index])
    (allowed : Allowed loader.needs process.events (.called phase lib index)) (finalised : phase =
      .fini → ∀ later, [lib, later].Sublist (completedIn .init process.events) → later ∈ completedIn
      .fini process.events) : Consistent loader next := by
  have completed (phase : LifecyclePhase) :
      completedIn phase next.events = completedIn phase process.events := by simp [events]
  constructor
  · rw [lifecycle]
    exact consistent.ordering
  · intro entry listed phase
    rw [lifecycle] at listed
    rw [completed]
    exact consistent.marked entry listed phase
  · intro phase
    rw [completed, lifecycle]
    exact consistent.placed phase
  · rw [completed, lifecycle]
    exact consistent.successful
  · rw [completed]
    exact consistent.distinct
  · rw [events]
    exact consistent.follows.concat allowed
  · intro earlier later before called
    rw [completed] at before ⊢
    rcases called with ⟨number, called⟩
    rw [events, callsIn_append, List.mem_append, callsIn_called] at called
    rcases called with called | called
    · exact consistent.finalised earlier later before ⟨number, called⟩
    · split_ifs at called with isFini
      · cases List.mem_singleton.mp called
        exact finalised isFini later before
      · cases called

theorem libs_complete : (process.complete lib phase).lifecycle.libs = process.lifecycle.libs := by
  rw [Process.complete, LifecycleState.libs, LifecycleState.libs, List.map_map]
  apply List.map_congr_left
  intro entry _
  simp only [Function.comp_apply]
  split
  · cases phase <;> rfl
  · rfl

theorem phaseDone_markPhaseDone (entry : LifecycleEntry) (marked : LifecyclePhase) :
    (entry.markPhaseDone marked).phaseDone phase = true ↔
      marked = phase ∨ entry.phaseDone phase = true := by
  cases marked <;> cases phase <;> simp [LifecycleEntry.markPhaseDone, LifecycleEntry.phaseDone]

/-- The end of a phase of an image. -/
theorem Consistent.complete (consistent : Consistent loader process)
    (listed : lib ∈ process.lifecycle.libs)
    (initialises : phase = .init → lib ∉ completedIn .init process.events ∧
      callsIn .fini process.events = [] ∧ ∀ dep ∈ loader.needs lib,
      dep ∈ completedIn .init process.events) : Consistent loader (process.complete lib phase) := by
  have events : (process.complete lib phase).events = process.events ++ [.completed phase lib] := rfl
  have completed (other : LifecyclePhase) : completedIn other (process.complete lib phase).events =
      completedIn other process.events ++ if phase = other then [lib] else [] := by
    rw [events, completedIn_append, completedIn_completed]
  constructor
  · constructor
    · rw [libs_complete]
      exact consistent.ordering.nodup
    · rw [libs_complete]
      exact consistent.ordering.ordered
    · rw [libs_complete]
      exact consistent.ordering.collected
  · intro entry inside other
    rcases List.mem_map.mp inside with ⟨before, found, rfl⟩
    have marked := consistent.marked before found other
    rw [completed]
    split
    · next own =>
      subst own
      rw [phaseDone_markPhaseDone, marked]
      cases phase <;> cases other <;> simp [LifecycleEntry.markPhaseDone]
    · next apart =>
      rw [marked]
      split <;> simp [apart]
  · intro other
    rw [completed, libs_complete]
    apply List.append_subset.mpr
    constructor
    · exact consistent.placed other
    · split
      · simpa using listed
      · exact List.nil_subset _
  · rw [completed]
    simp only [Process.complete, consistent.successful]
    split <;> simp
  · rw [completed]
    split
    · next isInit => exact nodup_concat consistent.distinct (initialises isInit).1
    · rw [List.append_nil]
      exact consistent.distinct
  · rw [events]
    apply consistent.follows.concat
    match phase with
    | .init => exact (initialises rfl).2.2
    | .preinit | .fini => trivial
  · intro earlier later before called
    have calls : callsIn .fini (process.complete lib phase).events =
        callsIn .fini process.events := by simp [events]
    rw [calls] at called
    rw [completed] at before ⊢
    split_ifs at before with isInit
    · rw [(initialises isInit).2.1] at called
      rcases called with ⟨_, called⟩
      cases called
    · rw [List.append_nil] at before
      exact List.mem_append_left _ (consistent.finalised earlier later before called)

/-! ## The functions of an image -/

/-- What visiting an image may do: it calls functions of it and completes its phase. -/
structure Visits (phase : LifecyclePhase) (lib : Option ImageId) (process next : Process) :
    Prop where
  libs : next.lifecycle.libs = process.lifecycle.libs
  cycle : next.lifecycle.cycleDetected = process.lifecycle.cycleDetected
  completed : ∀ other, completedIn other next.events = completedIn other process.events ∨
    (other = phase ∧ completedIn other next.events = completedIn other process.events ++ [lib])
  calls : ∀ other call, call ∈ callsIn other next.events →
    call ∈ callsIn other process.events ∨ (other = phase ∧ call.1 = lib)

/-- The functions at the indices may be called. -/
def Permits (loader : Loader) (process : Process) (lib : Option ImageId) (indices : List Nat) :
    LifecyclePhase → Prop
  | .preinit => True
  | .init => (∀ dep ∈ loader.needs lib, dep ∈ completedIn .init process.events) ∧
      indices.Nodup ∧ ∀ index ∈ indices, (lib, index) ∉ callsIn .init process.events
  | .fini => lib ∈ completedIn .init process.events ∧
      (∀ later, [lib, later].Sublist (completedIn .init process.events) →
        later ∈ completedIn .fini process.events) ∧
      indices.Pairwise (· > ·) ∧
      ∀ index ∈ indices, (lib, index) ∉ callsIn .fini process.events ∧
        ∀ earlier ∈ callsIn .fini process.events,
          FiniOrder (completedIn .init process.events) earlier (lib, index)

/-- The state after the function at an index was called. -/
def Process.called (process : Process) (phase : LifecyclePhase) (lib : Option ImageId)
    (index : Nat) (guest : Guest) : Process :=
  { process with guest := guest, events := process.events ++ [.called phase lib index] }

variable {indices : List Nat} {guest : Guest}

section

variable (permits : Permits loader process lib (index :: indices) phase)

include permits

theorem Permits.skip : Permits loader process lib indices phase := by
  match phase with
  | .preinit => trivial
  | .init =>
    obtain ⟨dependencies, distinct, fresh⟩ := permits
    exact ⟨dependencies, (List.nodup_cons.mp distinct).2,
      fun other inside => fresh other (List.mem_cons_of_mem _ inside)⟩
  | .fini =>
    obtain ⟨completed, later, descending, fresh⟩ := permits
    exact ⟨completed, later, (List.pairwise_cons.mp descending).2,
      fun other inside => fresh other (List.mem_cons_of_mem _ inside)⟩

theorem Permits.allowed : Allowed loader.needs process.events (.called phase lib index) := by
  match phase with
  | .preinit => trivial
  | .init => exact ⟨permits.1, permits.2.2 index List.mem_cons_self⟩
  | .fini => exact ⟨permits.1, permits.2.2.2 index List.mem_cons_self⟩

theorem Permits.called :
    Permits loader (process.called phase lib index guest) lib indices phase := by
  have events : (process.called phase lib index guest).events =
      process.events ++ [.called phase lib index] := rfl
  have completed (other : LifecyclePhase) :
      completedIn other (process.called phase lib index guest).events =
        completedIn other process.events := by simp [events]
  have calls (call : Option ImageId × Nat) :
      call ∈ callsIn phase (process.called phase lib index guest).events ↔
        call ∈ callsIn phase process.events ∨ call = (lib, index) := by simp [events]
  have rest := permits.skip
  match phase with
  | .preinit => trivial
  | .init =>
    have distinct := List.nodup_cons.mp permits.2.1
    refine ⟨by simpa only [completed] using rest.1, rest.2.1, ?_⟩
    intro other inside called
    rcases (calls _).mp called with called | same
    · exact rest.2.2 other inside called
    · cases same
      exact distinct.1 inside
  | .fini =>
    have descending := List.pairwise_cons.mp permits.2.2.1
    refine ⟨by simpa only [completed] using rest.1, by simpa only [completed] using rest.2.1,
      rest.2.2.1, ?_⟩
    intro other inside
    obtain ⟨fresh, order⟩ := rest.2.2.2 other inside
    constructor
    · intro called
      rcases (calls _).mp called with called | same
      · exact fresh called
      · cases same
        exact Nat.lt_irrefl _ (descending.1 _ inside)
    · intro earlier called
      rw [completed]
      rcases (calls _).mp called with called | rfl
      · exact order earlier called
      · exact .inl ⟨rfl, descending.1 other inside⟩

end

theorem Consistent.called (consistent : Consistent loader process)
    (permits : Permits loader process lib (index :: indices) phase) (guest : Guest) :
    Consistent loader (process.called phase lib index guest) := by
  have lifecycle : (process.called phase lib index guest).lifecycle = process.lifecycle := rfl
  apply consistent.call lifecycle rfl permits.allowed
  intro isFini
  subst isFini
  exact permits.2.1

theorem Visits.refl (phase : LifecyclePhase) (lib : Option ImageId)
    (lifecycle : next.lifecycle = process.lifecycle) (events : next.events = process.events) :
    Visits phase lib process next :=
  ⟨by rw [lifecycle], by rw [lifecycle], fun _ => .inl (by rw [events]),
    fun _ _ called => .inl (by rwa [events] at called)⟩

/-- Calls alone, which complete nothing. -/
structure Calls (phase : LifecyclePhase) (lib : Option ImageId) (process next : Process) :
    Prop where
  lifecycle : next.lifecycle = process.lifecycle
  completed : ∀ other, completedIn other next.events = completedIn other process.events
  calls : ∀ other call, call ∈ callsIn other next.events →
    call ∈ callsIn other process.events ∨ (other = phase ∧ call.1 = lib)

theorem Calls.visits (calls : Calls phase lib process next) : Visits phase lib process next :=
  ⟨by rw [calls.lifecycle], by rw [calls.lifecycle], fun other => .inl (calls.completed other),
    calls.calls⟩

theorem Calls.after_called (calls : Calls phase lib (process.called phase lib index guest) next) :
    Calls phase lib process next where
  lifecycle := calls.lifecycle
  completed := by
    intro other
    rw [calls.completed, Process.called, completedIn_append, completedIn_called, List.append_nil]
  calls := by
    intro other call called
    rcases calls.calls other call called with called | own
    · rw [Process.called, callsIn_append, callsIn_called, List.mem_append] at called
      rcases called with called | called
      · exact .inl called
      · split_ifs at called with same
        · cases List.mem_singleton.mp called
          exact .inr ⟨same.symm, rfl⟩
        · cases called
    · exact .inr own

/-- The loop over the functions of an image. -/
theorem visitFunctions_spec (callback : LifecycleFunction) (array : FunctionArray)
    (consistent : Consistent loader process) (permits : Permits loader process lib indices phase) :
    Consistent loader (Loader.visitFunctions phase callback array lib indices process).2 ∧
      Calls phase lib process
        (Loader.visitFunctions phase callback array lib indices process).2 := by
  induction indices generalizing process with
  | nil => exact ⟨consistent, rfl, fun _ => rfl, fun _ _ called => .inl called⟩
  | cons index indices ih =>
    rw [Loader.visitFunctions]
    split
    · exact ⟨consistent, rfl, fun _ => rfl, fun _ _ called => .inl called⟩
    · next function _ =>
      split
      · exact ih consistent permits.skip
      · have called := consistent.called permits (callback process.guest lib function phase).2
        have rest := ih called permits.called
        simp only
        split
        · exact ⟨rest.1, rest.2.after_called⟩
        · exact ⟨called, Calls.after_called ⟨rfl, fun _ => rfl, fun _ _ called => .inl called⟩⟩

end DaveCC.Loading
