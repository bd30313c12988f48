import DaveCC.Loader.LifecyclePhases

/-!
# Histories of calls

Calls of `LoaderLifecycleRunPhase` one after the other, from a state that holds no order.
An order that a failed call leaves is accepted by the next one, and an array that a failed
call leaves is visited again from its start.
-/

namespace DaveCC.Loading

open DaveCC.Graph

variable {loader : Loader} {process : Process} {phase : LifecyclePhase} {answers : List Bool}

/-- A call may be made: the order is none, cyclic or complete, and no earlier call was
interrupted in the phase. The initialisation does not go on after finalisation began. -/
def InOrder (loader : Loader) (phase : LifecyclePhase) (process : Process) : Prop :=
  (process.lifecycle.initOrder = [] ∨ process.lifecycle.cycleDetected = true ∨
    loader.Complete process.lifecycle) ∧
  match phase with
  | .preinit => True
  | .init => Uninterrupted .init process.events ∧
      (callsIn .fini process.events = [] ∨
        process.lifecycle.libs ⊆ completedIn .init process.events)
  | .fini => Uninterrupted .fini process.events

instance (loader : Loader) (phase : LifecyclePhase) (process : Process) :
    Decidable (InOrder loader phase process) := by
  unfold InOrder
  cases phase <;> infer_instance

/-- The state in which the images of a phase are visited. -/
structure Prepared (loader : Loader) (process : Process) (prepared : Bool × Process) : Prop where
  consistent : Consistent loader prepared.2
  events : prepared.2.events = process.events
  kept : process.lifecycle.initOrder ≠ [] → prepared = (true, process)
  complete : process.lifecycle.initOrder = [] → prepared.1 = true →
    loader.Complete prepared.2.lifecycle

theorem Consistent.completedIn_eq_nil (consistent : Consistent loader process)
    (empty : process.lifecycle.initOrder = []) (phase : LifecyclePhase) :
    completedIn phase process.events = [] := by
  have placed := consistent.placed phase
  rw [LifecycleState.libs, empty] at placed
  exact List.subset_nil.mp placed

theorem Consistent.callsIn_eq_nil (consistent : Consistent loader process)
    (empty : process.lifecycle.initOrder = []) : callsIn .fini process.events = [] := by
  apply List.eq_nil_iff_forall_not_mem.mpr
  intro call called
  have initialised := consistent.follows.initialised called
  rw [consistent.completedIn_eq_nil empty] at initialised
  cases initialised

theorem exists_prepare (dependencies : loader.SharedDependencies)
    (consistent : Consistent loader process) :
    ∃ prepared, loader.prepare process = some prepared ∧ Prepared loader process prepared := by
  rw [Loader.prepare]
  split
  · next isEmpty =>
    have empty := List.isEmpty_iff.mp isEmpty
    have nothing := consistent.completedIn_eq_nil empty
    rcases Loader.exists_lifecycleStateInit dependencies process.guest empty with
      ⟨result, returns, sorted, complete⟩
    rw [returns]
    refine ⟨_, rfl, ?_, rfl, fun nonempty => absurd empty nonempty, fun _ => complete⟩
    constructor
    · exact sorted.toOrdering
    · intro entry listed phase
      rw [sorted.fresh entry listed phase, nothing]
      simp
    · intro phase
      rw [nothing]
      exact List.nil_subset _
    · rw [nothing]
      exact sorted.successful
    · exact consistent.distinct
    · exact consistent.follows
    · exact consistent.finalised
  · next isNonempty =>
    have nonempty : process.lifecycle.initOrder ≠ [] := fun empty => isNonempty (by simp [empty])
    exact ⟨_, rfl, consistent, rfl, fun _ => rfl, fun empty => absurd empty nonempty⟩

variable {prepared : Bool × Process}

/-- The images of a phase of a prepared state. -/
theorem Prepared.visitImages (callback : LifecycleFunction)
    (ready : Prepared loader process prepared) (consistent : Consistent loader process)
    (inOrder : InOrder loader phase process) :
    Consistent loader (loader.visitImages phase callback
      (Loader.phaseImages phase prepared.2.lifecycle) prepared.2).2 := by
  match phase with
  | .preinit =>
    exact visitImages_spec callback (fun _ _ => True) (fun _ _ _ _ _ => trivial)
      (fun _ _ _ _ _ _ _ _ => trivial) ready.consistent trivial
  | .init =>
    apply visitImages_spec callback BeforeInit
      (fun _ _ _ before consistent => before.visitable consistent)
      (fun _ _ _ _ before _ visits completes => before.step visits completes) ready.consistent
    constructor
    · rw [ready.events]
      exact inOrder.2.1
    · rcases Classical.em (process.lifecycle.initOrder = []) with empty | nonempty
      · rw [ready.events]
        exact .inl (consistent.callsIn_eq_nil empty)
      · rw [ready.kept nonempty]
        exact inOrder.2.2
    · exact ⟨[], rfl, List.nil_subset _⟩
  | .fini =>
    apply visitImages_spec callback BeforeFini
      (fun _ _ _ before consistent => before.visitable consistent)
      (fun _ _ _ _ before _ visits completes => before.step visits completes) ready.consistent
    constructor
    · rw [ready.events]
      exact inOrder.2
    · refine ⟨[], ?_, List.nil_subset _⟩
      rw [Loader.phaseImages, ready.consistent.successful]
      rfl

/-- The images are visited only in a complete order, which no unsortable loader has. -/
theorem Prepared.sortable (dependencies : loader.SharedDependencies)
    (ready : Prepared loader process prepared) (inOrder : InOrder loader phase process)
    (succeeded : prepared.1 = true) (acyclic : prepared.2.lifecycle.cycleDetected = false) :
    ¬loader.Unsortable := by
  apply ready.consistent.ordering.not_unsortable _ dependencies
  rcases Classical.em (process.lifecycle.initOrder = []) with empty | nonempty
  · exact ready.complete empty succeeded
  · rw [ready.kept nonempty] at acyclic ⊢
    rcases inOrder.1 with empty | cyclic | complete
    · exact absurd empty nonempty
    · rw [cyclic] at acyclic
      cases acyclic
    · exact complete

/-- `LoaderLifecycleRunPhase` returns, and runs nothing when it has to fail. -/
theorem exists_lifecycleRunPhase (dependencies : loader.SharedDependencies)
    (callback : LifecycleFunction) (consistent : Consistent loader process)
    (inOrder : InOrder loader phase process) :
    ∃ result, loader.lifecycleRunPhase phase callback process = some result ∧
      Consistent loader result.2 ∧
      (loader.Unsortable → result.1 = false ∧ result.2.events = process.events) := by
  rcases exists_prepare dependencies consistent with ⟨prepared, returns, ready⟩
  rw [Loader.lifecycleRunPhase, returns]
  refine ⟨_, rfl, ?_⟩
  simp only
  split
  · exact ⟨ready.consistent, fun _ => ⟨rfl, ready.events⟩⟩
  · next visits =>
    simp only [Bool.or_eq_true, Bool.not_eq_true', not_or, Bool.not_eq_false,
      Bool.not_eq_true] at visits
    exact ⟨ready.visitImages callback consistent inOrder,
      fun unsortable => absurd unsortable (ready.sortable dependencies inOrder visits.1 visits.2)⟩

/-! ## Every history -/

/-- The histories whose calls may be made, with their answers and the state after them.
Between two calls the guest may change. -/
inductive History (loader : Loader) (may : LifecyclePhase → Process → Prop) :
    List Bool → Process → Prop
  | start (guest : Guest) : History loader may [] { guest := guest }
  | call {answers : List Bool} {process : Process} {result : Bool × Process} (guest : Guest)
      (phase : LifecyclePhase) (callback : LifecycleFunction)
      (history : History loader may answers process) (allowed : may phase process)
      (returns : loader.lifecycleRunPhase phase callback { process with guest := guest } =
        some result) :
      History loader may (answers ++ [result.1]) result.2

/-- Initialisation and finalisation follow the dependencies, and nothing runs for images
that cannot be sorted. -/
structure FollowsOrder (loader : Loader) (answers : List Bool) (process : Process) : Prop where
  follows : FollowsDependencies loader.needs process.events
  rejected : loader.Unsortable → process.events = [] ∧ ∀ answer ∈ answers, answer = false

theorem consistent_start (guest : Guest) : Consistent loader { guest := guest } where
  ordering := Loader.Sorted.empty.toOrdering
  marked := fun _ impossible => by cases impossible
  placed := fun _ => List.nil_subset _
  successful := rfl
  distinct := List.nodup_nil
  follows := followsDependencies_nil
  finalised := by
    intro earlier later impossible
    cases impossible

/-- The guest does not matter for whether a call may be made. -/
theorem InOrder.withGuest (inOrder : InOrder loader phase process) (guest : Guest) :
    InOrder loader phase { process with guest := guest } :=
  inOrder

theorem Consistent.withGuest (consistent : Consistent loader process) (guest : Guest) :
    Consistent loader { process with guest := guest } :=
  consistent.congr rfl rfl

theorem History.consistent (dependencies : loader.SharedDependencies)
    (history : History loader (InOrder loader) answers process) :
    Consistent loader process ∧
      (loader.Unsortable → process.events = [] ∧ ∀ answer ∈ answers, answer = false) := by
  induction history with
  | start guest => exact ⟨consistent_start guest, fun _ => ⟨rfl, by simp⟩⟩
  | call guest phase callback _ allowed returns ih =>
    rcases exists_lifecycleRunPhase dependencies callback
      (ih.1.withGuest guest) (allowed.withGuest guest) with
      ⟨result, same, consistent, rejects⟩
    rw [returns] at same
    cases same
    refine ⟨consistent, fun unsortable => ?_⟩
    obtain ⟨answer, unchanged⟩ := rejects unsortable
    obtain ⟨nothing, failed⟩ := ih.2 unsortable
    refine ⟨unchanged.trans nothing, ?_⟩
    intro other listed
    rcases List.mem_append.mp listed with listed | own
    · exact failed other listed
    · rw [List.mem_singleton.mp own]
      exact answer

/-- A history in which no call goes on from an interrupted one follows the dependencies,
and its next call returns. -/
theorem History.followsOrder (dependencies : loader.SharedDependencies)
    (history : History loader (InOrder loader) answers process) :
    FollowsOrder loader answers process ∧
      ∀ phase callback guest, InOrder loader phase process →
        ∃ result, loader.lifecycleRunPhase phase callback { process with guest := guest } =
          some result := by
  obtain ⟨consistent, rejected⟩ := history.consistent dependencies
  refine ⟨⟨consistent.follows, rejected⟩, fun phase callback guest inOrder => ?_⟩
  rcases exists_lifecycleRunPhase dependencies callback (consistent.withGuest guest) (inOrder.withGuest guest) with
    ⟨result, returns, _⟩
  exact ⟨result, returns⟩

/-- A shared object with one initialisation function, and what it needs. -/
def sharedObject (filename : FileName) (needed : List (BitVec 64)) : LoadedDynamicLibrary where
  filename := filename
  libname := filename
  header := some { type := .dyn }
  dynamic := some ([⟨.strtab, 16⟩, ⟨.initArray, 64⟩, ⟨.initArraySz, 8⟩] ++
    needed.map fun name => ⟨.needed, name⟩)
  dynamicSectionRelocated := true

/-- The names in the string table of every shared object. -/
def neededName (address : BitVec 64) : FileName :=
  if address = 17 then ['a'] else if address = 18 then ['b'] else ['c']

/-- The main image needs the library `a`. -/
def mainAndLibrary : Loader where
  isStatic := false
  library := fun id => if id = 0 then sharedObject ['m'] [1] else sharedObject ['a'] []
  search := [0, 1]
  dynamicLib := some 0
  stringAt := neededName
  registered := by
    intro main same
    cases same
    exact List.mem_cons_self

/-- The main image needs the libraries `a` and `b`, and `b` needs a library that was not
loaded. -/
def missingLibrary : Loader where
  isStatic := false
  library := fun id =>
    if id = 0 then sharedObject ['m'] [1, 2]
    else if id = 1 then sharedObject ['a'] []
    else sharedObject ['b'] [3]
  search := [0, 1, 2]
  dynamicLib := some 0
  stringAt := neededName
  registered := by
    intro main same
    cases same
    exact List.mem_cons_self

/-- A guest whose functions stand at their own addresses. -/
def identityGuest : Guest where
  memory := fun address _ => address
  numErrors := 0

/-- A callback that always succeeds. -/
def succeed : LifecycleFunction :=
  fun guest _ _ _ => (true, guest)

theorem sharedDependencies_mainAndLibrary : mainAndLibrary.SharedDependencies where
  shared := by
    intro lib _ dep _
    rw [Loader.isType, mainAndLibrary]
    simp only
    split <;> rfl
  found := by decide

theorem History.followsOrder_mainAndLibrary :
    ∃ process, FollowsOrder mainAndLibrary [true, true] process ∧
      process.events =
        [.called .init (some 1) 0, .completed .init (some 1),
          .called .init (some 0) 0, .completed .init (some 0),
          .completed .fini (some 0), .completed .fini (some 1)] :=
  ⟨_, (History.followsOrder sharedDependencies_mainAndLibrary
    (.call identityGuest .fini succeed
      (.call identityGuest .init succeed (.start identityGuest) (by decide) rfl)
      (by decide) rfl)).1, by decide⟩

/-- A library is missing, and the call that follows the failed one runs the functions of
the images that were placed before. -/
theorem not_history_followsOrder :
    ¬∀ loader answers process, History loader (fun _ _ => True) answers process →
      FollowsOrder loader answers process := by
  intro follows
  have missing : missingLibrary.Unsortable := ⟨2, by decide, .inl (by decide)⟩
  have nothing := ((follows missingLibrary _ _
    (.call identityGuest .init succeed
      (.call identityGuest .init succeed (.start identityGuest) trivial rfl)
      trivial rfl)).rejected missing).2 true (by decide)
  cases nothing

end DaveCC.Loading
