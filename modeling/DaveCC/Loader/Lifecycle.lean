import DaveCC.Loader.LoadedImages
import DaveCC.Graph.DependencyOrder

/-!
# Image initialisation and finalisation

`loader_lifecycle.c`: the order of the images, the phases of each of them, and the calls
of their functions. An entry of the order is identified by its image. The calls and the
completed phases are recorded in the order in which they happen.
-/

namespace DaveCC.Loading

structure LifecycleEntry where
  lib : Option ImageId
  isExecutable : Bool
  preinitDone : Bool := false
  initDone : Bool := false
  finiDone : Bool := false
  deriving DecidableEq

structure LifecycleState where
  initOrder : List LifecycleEntry := []
  successfulInit : List (Option ImageId) := []
  cycleDetected : Bool := false
  executableGuestFiniDone : Bool := false

/-- `LoaderLifecycleFunctionFn` with its context: it may change the guest. -/
abbrev LifecycleFunction := Guest → Option ImageId → BitVec 64 → LifecyclePhase → Bool × Guest

/-- What a run does: the call of the function at an index of the array of an image, and
the end of a phase of an image. -/
inductive LifecycleEvent where
  | called (phase : LifecyclePhase) (lib : Option ImageId) (index : Nat)
  | completed (phase : LifecyclePhase) (lib : Option ImageId)
  deriving DecidableEq

/-- The state of a run. The record of the events is not in the source. -/
structure Process where
  lifecycle : LifecycleState := {}
  guest : Guest
  events : List LifecycleEvent := []

/-- `FindLifecycleEntry`. -/
def LifecycleState.findEntry (state : LifecycleState) (lib : Option ImageId) :
    Option LifecycleEntry :=
  state.initOrder.find? fun entry => entry.lib == lib

def LifecycleState.append (state : LifecycleState) (entry : LifecycleEntry) : LifecycleState :=
  { state with initOrder := state.initOrder ++ [entry] }

structure LifecycleSortContext where
  state : LifecycleState
  visiting : List ImageId
  guest : Guest

namespace LifecycleSortContext

def enter (context : LifecycleSortContext) (lib : ImageId) : LifecycleSortContext :=
  { context with visiting := context.visiting ++ [lib] }

def leave (context : LifecycleSortContext) : LifecycleSortContext :=
  { context with visiting := context.visiting.dropLast }

def append (context : LifecycleSortContext) (entry : LifecycleEntry) : LifecycleSortContext :=
  { context with state := context.state.append entry }

end LifecycleSortContext

namespace Loader

variable (loader : Loader)

/-- The entry that a visit appends. -/
def sortedEntry (lib : ImageId) : LifecycleEntry where
  lib := some lib
  isExecutable := loader.imageIsExecutable (some lib)

/-- `LifecycleVisitForSort`, for at most `fuel` nested visits. -/
def lifecycleVisitForSort : Nat → ImageId → LifecycleSortContext →
    Option (Bool × LifecycleSortContext)
  | fuel, lib, context =>
    if lib ∈ context.visiting then
      some (false, { context with
        state := { context.state with cycleDetected := true }
        guest := context.guest.loaderError })
    else if (context.state.findEntry (some lib)).isSome then some (true, context)
    else
      match fuel with
      | 0 => none
      | fuel + 1 =>
        let context := context.enter lib
        match loader.collectNeededDependencies lib with
        | none => some (false, { context with guest := context.guest.loaderError }.leave)
        | some dependencies =>
          (dependencies.foldlM
            (fun result dep =>
              if result.1 && loader.isType .dyn dep then
                lifecycleVisitForSort fuel dep result.2
              else some result)
            (true, context)).map fun result =>
              if result.1 then (true, (result.2.append (loader.sortedEntry lib)).leave)
              else (false, result.2.leave)

/-- The loop of `LoaderLifecycleStateInit` over the loaded images. -/
def sortImages (fuel : Nat) (context : LifecycleSortContext) :
    Option (Bool × LifecycleSortContext) :=
  loader.search.foldlM
    (fun result lib =>
      if result.1 && loader.isType .dyn lib then loader.lifecycleVisitForSort fuel lib result.2
      else some result)
    (true, context)

/-- The entry of the main image, which comes last unless it was sorted. -/
def addMainEntry (state : LifecycleState) (main : ImageId) : LifecycleState :=
  if (state.findEntry (some main)).isSome then
    { state with
      initOrder := state.initOrder.map fun entry =>
        if entry.lib = some main then { entry with isExecutable := true } else entry }
  else state.append { lib := some main, isExecutable := true }

/-- `LoaderLifecycleStateInit`. A visit nests at most as deep as there are images. -/
def lifecycleStateInit (state : LifecycleState) (guest : Guest) :
    Option (Bool × LifecycleState × Guest) :=
  if !state.initOrder.isEmpty then some (!state.cycleDetected, state, guest)
  else
    let state : LifecycleState := {}
    match if loader.isStatic then none else loader.dynamicLib with
    | none => some (true, state.append { lib := none, isExecutable := true }, guest)
    | some main =>
      (loader.sortImages loader.search.length
        { state := state, visiting := [], guest := guest }).map fun result =>
          if result.1 then
            let state := addMainEntry result.2.state main
            (!state.cycleDetected, state, result.2.guest)
          else (false, result.2.state, result.2.guest)

end Loader

/-- `LifecycleEntryPhaseDone`. -/
def LifecycleEntry.phaseDone (entry : LifecycleEntry) : LifecyclePhase → Bool
  | .preinit => entry.preinitDone
  | .init => entry.initDone
  | .fini => entry.finiDone

/-- `LifecycleEntryMarkPhaseDone`. -/
def LifecycleEntry.markPhaseDone (entry : LifecycleEntry) : LifecyclePhase → LifecycleEntry
  | .preinit => { entry with preinitDone := true }
  | .init => { entry with initDone := true }
  | .fini => { entry with finiDone := true }

/-- The end of a phase of an image. -/
def Process.complete (process : Process) (lib : Option ImageId) (phase : LifecyclePhase) :
    Process :=
  let state := process.lifecycle
  { process with
    lifecycle :=
      { state with
        initOrder := state.initOrder.map fun entry =>
          if entry.lib = lib then entry.markPhaseDone phase else entry
        successfulInit :=
          if phase = .init then state.successfulInit ++ [lib] else state.successfulInit }
    events := process.events ++ [.completed phase lib] }

namespace Loader

variable (loader : Loader) (phase : LifecyclePhase) (callback : LifecycleFunction)

/-- The loop of `LoaderLifecycleVisitImageFunctions` over the indices of an array. -/
def visitFunctions (array : FunctionArray) (lib : Option ImageId) :
    List Nat → Process → Bool × Process
  | [], process => (true, process)
  | index :: indices, process =>
    match readFunctionArrayEntry process.guest array index with
    | none => (false, process)
    | some function =>
      if function = 0 then visitFunctions array lib indices process
      else
        let answer := callback process.guest lib function phase
        let process :=
          { process with
            guest := answer.2
            events := process.events ++ [.called phase lib index] }
        if answer.1 then visitFunctions array lib indices process else (false, process)

/-- The indices in the order in which a phase visits them. -/
def phaseIndices (count : Nat) : List Nat :=
  if phase = .fini then (List.range count).reverse else List.range count

/-- `LoaderLifecycleVisitImageFunctions`. -/
def visitImageFunctions (lib : Option ImageId) (process : Process) : Bool × Process :=
  match process.lifecycle.findEntry lib with
  | none => (false, process)
  | some entry =>
    if entry.phaseDone phase then (true, process)
    else if phase = .fini ∧ entry.initDone = false then (true, process)
    else
      let found := loader.getImageFunctionArray lib phase process.guest
      let process := { process with guest := found.2 }
      match found.1 with
      | none =>
        if process.guest.numErrors ≠ 0 then (false, process)
        else (true, process.complete lib phase)
      | some array =>
        let visited :=
          visitFunctions phase callback array lib (phaseIndices phase array.entryCount) process
        if visited.1 then (true, visited.2.complete lib phase) else visited

/-- Images are visited until a visit fails. -/
def visitImages : List (Option ImageId) → Process → Bool × Process
  | [], process => (true, process)
  | lib :: libs, process =>
    let visited := loader.visitImageFunctions phase callback lib process
    if visited.1 then visitImages libs visited.2 else visited

/-- The images that a phase visits, in their order. -/
def phaseImages (state : LifecycleState) : List (Option ImageId) :=
  match phase with
  | .preinit => (state.initOrder.filter LifecycleEntry.isExecutable).map LifecycleEntry.lib
  | .init => state.initOrder.map LifecycleEntry.lib
  | .fini => state.successfulInit.reverse

/-- The order is computed unless there is one. -/
def prepare (process : Process) : Option (Bool × Process) :=
  if process.lifecycle.initOrder.isEmpty then
    (loader.lifecycleStateInit process.lifecycle process.guest).map fun result =>
      (result.1, { process with lifecycle := result.2.1, guest := result.2.2 })
  else some (true, process)

/-- `LoaderLifecycleRunPhase`. -/
def lifecycleRunPhase (process : Process) : Option (Bool × Process) :=
  (loader.prepare process).map fun prepared =>
    let process := prepared.2
    if !prepared.1 || process.lifecycle.cycleDetected then (false, process)
    else loader.visitImages phase callback (phaseImages phase process.lifecycle) process

end Loader

end DaveCC.Loading

/-!
## What a run of phases may do

The order of initialisation and finalisation as a property of the events of a run alone,
and the events that may come next.
-/

namespace DaveCC.Loading

open DaveCC.Container DaveCC.Graph

/-! ## Events of a phase -/

/-- The images that have completed a phase, in their order. -/
def completedIn (phase : LifecyclePhase) (events : List LifecycleEvent) : List (Option ImageId) :=
  events.filterMap fun
    | .completed other lib => if other = phase then some lib else none
    | .called _ _ _ => none

/-- The calls of a phase, in their order. -/
def callsIn (phase : LifecyclePhase) (events : List LifecycleEvent) :
    List (Option ImageId × Nat) :=
  events.filterMap fun
    | .called other lib index => if other = phase then some (lib, index) else none
    | .completed _ _ => none

variable {phase other : LifecyclePhase} {events : List LifecycleEvent} {lib : Option ImageId}
  {index : Nat}

@[simp] theorem completedIn_append (events more : List LifecycleEvent) :
    completedIn phase (events ++ more) = completedIn phase events ++ completedIn phase more :=
  List.filterMap_append ..

@[simp] theorem callsIn_append (events more : List LifecycleEvent) :
    callsIn phase (events ++ more) = callsIn phase events ++ callsIn phase more :=
  List.filterMap_append ..

@[simp] theorem completedIn_called : completedIn phase [.called other lib index] = [] :=
  rfl

@[simp] theorem callsIn_completed : callsIn phase [.completed other lib] = [] :=
  rfl

@[simp] theorem completedIn_completed :
    completedIn phase [.completed other lib] = if other = phase then [lib] else [] := by
  cases phase <;> cases other <;> rfl

@[simp] theorem callsIn_called :
    callsIn phase [.called other lib index] = if other = phase then [(lib, index)] else [] := by
  cases phase <;> cases other <;> rfl

/-- Of two calls of finalisation functions, the later one is of an earlier function of the
same image, or of an image that was initialised before the other one. -/
def FiniOrder (initialised : List (Option ImageId)) (earlier later : Option ImageId × Nat) :
    Prop :=
  (earlier.1 = later.1 ∧ later.2 < earlier.2) ∨ [later.1, earlier.1].Sublist initialised

/-- The images are initialised after what they need and finalised in the other direction,
and no function is called twice. -/
structure FollowsDependencies (needs : Option ImageId → List (Option ImageId))
    (events : List LifecycleEvent) : Prop where
  dependencies : ∀ front lib index back, events = front ++ .called .init lib index :: back →
    ∀ dep ∈ needs lib, dep ∈ completedIn .init front
  completions : ∀ front lib back, events = front ++ .completed .init lib :: back →
    ∀ dep ∈ needs lib, dep ∈ completedIn .init front
  initOnce : (callsIn .init events).Nodup
  finiOnce : (callsIn .fini events).Nodup
  finiCompleted : ∀ front lib index back, events = front ++ .called .fini lib index :: back →
    lib ∈ completedIn .init front
  finiOrder : (callsIn .fini events).Pairwise (FiniOrder (completedIn .init events))

/-- The events that may come next. -/
def Allowed (needs : Option ImageId → List (Option ImageId)) (events : List LifecycleEvent) :
    LifecycleEvent → Prop
  | .called .init lib index =>
    (∀ dep ∈ needs lib, dep ∈ completedIn .init events) ∧ (lib, index) ∉ callsIn .init events
  | .called .fini lib index =>
    lib ∈ completedIn .init events ∧ (lib, index) ∉ callsIn .fini events ∧
      ∀ earlier ∈ callsIn .fini events, FiniOrder (completedIn .init events) earlier (lib, index)
  | .completed .init lib => ∀ dep ∈ needs lib, dep ∈ completedIn .init events
  | .called .preinit _ _ | .completed .preinit _ | .completed .fini _ => True

variable {needs : Option ImageId → List (Option ImageId)} {event : LifecycleEvent}

theorem FiniOrder.mono {initialised more : List (Option ImageId)}
    {earlier later : Option ImageId × Nat} (order : FiniOrder initialised earlier later)
    (grows : initialised.Sublist more) : FiniOrder more earlier later := by
  rcases order with same | before
  · exact .inl same
  · exact .inr (before.trans grows)

theorem followsDependencies_nil : FollowsDependencies needs [] where
  dependencies := by
    intro front lib index back split
    simp at split
  completions := by
    intro front lib back split
    simp at split
  initOnce := List.nodup_nil
  finiOnce := List.nodup_nil
  finiCompleted := by
    intro front lib index back split
    simp at split
  finiOrder := .nil

/-- An allowed event keeps the order. -/
theorem FollowsDependencies.concat (follows : FollowsDependencies needs events)
    (allowed : Allowed needs events event) : FollowsDependencies needs (events ++ [event]) where
  dependencies := by
    intro front lib index back split
    rcases split_concat split with ⟨rfl, rfl, rfl⟩ | ⟨rest, rfl, inner⟩
    · exact allowed.1
    · exact follows.dependencies front lib index rest inner
  completions := by
    intro front lib back split
    rcases split_concat split with ⟨rfl, rfl, rfl⟩ | ⟨rest, rfl, inner⟩
    · exact allowed
    · exact follows.completions front lib rest inner
  initOnce := by
    match event with
    | .completed _ _ | .called .preinit _ _ | .called .fini _ _ => simpa using follows.initOnce
    | .called .init lib index => simpa using nodup_concat follows.initOnce allowed.2
  finiOnce := by
    match event with
    | .completed _ _ | .called .preinit _ _ | .called .init _ _ => simpa using follows.finiOnce
    | .called .fini lib index => simpa using nodup_concat follows.finiOnce allowed.2.1
  finiCompleted := by
    intro front lib index back split
    rcases split_concat split with ⟨rfl, rfl, rfl⟩ | ⟨rest, rfl, inner⟩
    · exact allowed.1
    · exact follows.finiCompleted front lib index rest inner
  finiOrder := by
    have grown : (callsIn .fini events).Pairwise
        (FiniOrder (completedIn .init (events ++ [event]))) := by
      apply follows.finiOrder.imp
      intro earlier later order
      apply order.mono
      rw [completedIn_append]
      exact List.sublist_append_left _ _
    match event with
    | .completed _ _ | .called .preinit _ _ | .called .init _ _ => simpa using grown
    | .called .fini lib index =>
      rw [callsIn_append, callsIn_called, if_pos rfl]
      apply List.pairwise_append.mpr
      refine ⟨grown, List.pairwise_singleton _ _, ?_⟩
      intro earlier called last own
      rw [List.mem_singleton.mp own]
      simpa using allowed.2.2 earlier called

end DaveCC.Loading
