import DaveCC.Loader.LifecycleRuns

/-!
# Visits of images and histories of calls

The images of a phase are visited so that what each of them waits for has completed
before. A history of calls, each made in a state in which no earlier call was interrupted,
follows the dependencies.
-/

namespace DaveCC.Loading

open DaveCC.Container DaveCC.Graph DaveCC.Loop

variable {loader : Loader} {process next : Process} {phase : LifecyclePhase}
  {lib : Option ImageId} {libs : List (Option ImageId)} {index : Nat}
  {events : List LifecycleEvent}

theorem mem_callsIn : (lib, index) ∈ callsIn phase events ↔ .called phase lib index ∈ events := by
  rw [callsIn, List.mem_filterMap]
  constructor
  · rintro ⟨event, listed, found⟩
    cases event with
    | completed _ _ => cases found
    | called other image number =>
      simp only [Option.ite_none_right_eq_some, Option.some.injEq, Prod.mk.injEq] at found
      rcases found with ⟨rfl, rfl, rfl⟩
      exact listed
  · intro listed
    exact ⟨_, listed, by simp⟩

/-- An image whose finalisation functions were called has been initialised. -/
theorem FollowsDependencies.initialised {needs : Option ImageId → List (Option ImageId)}
    (follows : FollowsDependencies needs events) (called : (lib, index) ∈ callsIn .fini events) :
    lib ∈ completedIn .init events := by
  rcases List.append_of_mem (mem_callsIn.mp called) with ⟨front, back, rfl⟩
  rw [completedIn_append]
  exact List.mem_append_left _ (follows.finiCompleted front lib index back rfl)

/-- The image may be visited in the phase. -/
def Visitable (loader : Loader) (process : Process) (lib : Option ImageId) :
    LifecyclePhase → Prop
  | .preinit => True
  | .init => (∀ dep ∈ loader.needs lib, dep ∈ completedIn .init process.events) ∧
      (lib ∈ completedIn .init process.events ∨ callsIn .fini process.events = [] ∧
        ∀ call ∈ callsIn .init process.events, call.1 ≠ lib)
  | .fini => lib ∈ completedIn .init process.events ∧
      (∀ later, [lib, later].Sublist (completedIn .init process.events) →
        later ∈ completedIn .fini process.events) ∧
      (lib ∈ completedIn .fini process.events ∨ ∀ call ∈ callsIn .fini process.events, call.1 ≠ lib)

/-- None of the functions of an image that may be visited has been called. -/
theorem Visitable.permits (visitable : Visitable loader process lib phase)
    (consistent : Consistent loader process) (fresh : lib ∉ completedIn phase process.events)
    (count : Nat) : Permits loader process lib (Loader.phaseIndices phase count) phase := by
  match phase with
  | .preinit => trivial
  | .init =>
    rcases visitable with ⟨dependencies, done | ⟨_, uncalled⟩⟩
    · exact absurd done fresh
    · refine ⟨dependencies, ?_, fun index _ called => uncalled _ called rfl⟩
      simpa [Loader.phaseIndices] using List.nodup_range
  | .fini =>
    rcases visitable with ⟨initialised, later, done | uncalled⟩
    · exact absurd done fresh
    · refine ⟨initialised, later, ?_, fun index _ => ⟨fun called => uncalled _ called rfl, ?_⟩⟩
      · simpa [Loader.phaseIndices, List.pairwise_reverse] using List.pairwise_lt_range
      · intro earlier called
        have before : earlier.1 ∈ completedIn .init process.events :=
          consistent.follows.initialised called
        rcases pair_sublist_or (uncalled earlier called).symm initialised before with own | other
        · exact .inr own
        · exact absurd (consistent.finalised earlier.1 lib other ⟨_, called⟩) fresh

theorem Visits.complete (visits : Visits phase lib process next)
    (same : completedIn phase next.events = completedIn phase process.events) :
    Visits phase lib process (next.complete lib phase) where
  libs := by rw [libs_complete, visits.libs]
  cycle := visits.cycle
  completed := by
    intro other
    have events : (next.complete lib phase).events = next.events ++ [.completed phase lib] := rfl
    rw [events, completedIn_append, completedIn_completed]
    split
    · next isPhase =>
      subst isPhase
      rw [same]
      exact .inr ⟨rfl, rfl⟩
    · next apart =>
      rw [List.append_nil]
      rcases visits.completed other with unchanged | ⟨isPhase, _⟩
      · exact .inl unchanged
      · exact absurd isPhase.symm apart
  calls := by
    intro other call called
    have events : (next.complete lib phase).events = next.events ++ [.completed phase lib] := rfl
    rw [events, callsIn_append, callsIn_completed, List.append_nil] at called
    exact visits.calls other call called

theorem mem_completed_complete : lib ∈ completedIn phase (process.complete lib phase).events := by
  have events : (process.complete lib phase).events = process.events ++ [.completed phase lib] := rfl
  simp [events]

structure ImageVisited (loader : Loader) (phase : LifecyclePhase) (lib : Option ImageId)
    (process : Process) (result : Bool × Process) : Prop where
  consistent : Consistent loader result.2
  visits : Visits phase lib process result.2
  completes : result.1 = true → lib ∈ completedIn phase result.2.events

/-- The phase of an image ends after calls of its functions. -/
theorem ImageVisited.complete (visitable : Visitable loader process lib phase)
    (listed : lib ∈ process.lifecycle.libs) (fresh : lib ∉ completedIn phase process.events)
    (consistent : Consistent loader next) (calls : Calls phase lib process next) :
    ImageVisited loader phase lib process (true, next.complete lib phase) where
  consistent := by
    apply consistent.complete
    · rw [calls.lifecycle]
      exact listed
    · rintro rfl
      rcases visitable with ⟨dependencies, done | ⟨unfinalised, _⟩⟩
      · exact absurd done fresh
      · rw [calls.completed]
        refine ⟨fresh, ?_, dependencies⟩
        apply List.eq_nil_iff_forall_not_mem.mpr
        intro call called
        rcases calls.calls .fini call called with called | ⟨impossible, _⟩
        · rw [unfinalised] at called
          cases called
        · cases impossible
  visits := calls.visits.complete (calls.completed phase)
  completes := fun _ => mem_completed_complete

/-- `LoaderLifecycleVisitImageFunctions`. -/
theorem visitImageFunctions_spec (callback : LifecycleFunction)
    (consistent : Consistent loader process) (visitable : Visitable loader process lib phase) :
    ImageVisited loader phase lib process
      (loader.visitImageFunctions phase callback lib process) := by
  rw [Loader.visitImageFunctions]
  split
  · exact ⟨consistent, .refl _ _ rfl rfl, fun impossible => by cases impossible⟩
  · next entry found =>
    have listed := List.mem_of_find?_eq_some found
    have own : entry.lib = lib := by simpa using List.find?_some found
    have marked (phase : LifecyclePhase) := own ▸ consistent.marked entry listed phase
    split
    · next done => exact ⟨consistent, .refl _ _ rfl rfl, fun _ => (marked phase).mp done⟩
    · next undone =>
      have fresh : lib ∉ completedIn phase process.events := fun done => undone ((marked phase).mpr done)
      have inside : lib ∈ process.lifecycle.libs := own ▸ List.mem_map_of_mem listed
      split
      · next early =>
        rcases early with ⟨rfl, uninitialised⟩
        have initialised := (marked .init).mpr visitable.1
        rw [LifecycleEntry.phaseDone, uninitialised] at initialised
        cases initialised
      · simp only
        generalize loader.getImageFunctionArray lib phase process.guest = found
        have permits := visitable.permits consistent fresh
        have consistent : Consistent loader { process with guest := found.2 } :=
          consistent.congr rfl rfl
        have calls : Calls phase lib process { process with guest := found.2 } :=
          ⟨rfl, fun _ => rfl, fun _ _ called => .inl called⟩
        split
        · split
          · exact ⟨consistent, calls.visits, fun impossible => by cases impossible⟩
          · exact .complete visitable inside fresh consistent calls
        · next array _ =>
          have visited := visitFunctions_spec callback array consistent
            (show Permits loader { process with guest := found.2 } lib
              (Loader.phaseIndices phase array.entryCount) phase from permits array.entryCount)
          have calls : Calls phase lib process _ :=
            ⟨visited.2.lifecycle, visited.2.completed, visited.2.calls⟩
          split
          · exact .complete visitable inside fresh visited.1 calls
          · next failed => exact ⟨visited.1, calls.visits, fun succeeded => absurd succeeded failed⟩

/-! ## The images of a phase -/

/-- The images of a phase, of which every one may be visited when its turn comes. -/
theorem visitImages_spec (callback : LifecycleFunction)
    (Before : List (Option ImageId) → Process → Prop)
    (visitable : ∀ lib libs process, Before (lib :: libs) process →
      Consistent loader process → Visitable loader process lib phase)
    (step : ∀ lib libs process next, Before (lib :: libs) process →
      Consistent loader process → Visits phase lib process next →
      lib ∈ completedIn phase next.events → Before libs next)
    (consistent : Consistent loader process) (before : Before libs process) :
    Consistent loader (loader.visitImages phase callback libs process).2 := by
  induction libs generalizing process with
  | nil => exact consistent
  | cons lib libs ih =>
    have visited := visitImageFunctions_spec callback consistent
      (visitable lib libs process before consistent)
    rw [Loader.visitImages]
    split
    · next succeeded =>
      exact ih visited.consistent
        (step lib libs process _ before consistent visited.visits (visited.completes succeeded))
    · exact visited.consistent

theorem Visits.subset (visits : Visits phase lib process next) (other : LifecyclePhase) :
    completedIn other process.events ⊆ completedIn other next.events := by
  rcases visits.completed other with same | ⟨_, grown⟩
  · rw [same]
    exact List.Subset.refl _
  · rw [grown]
    exact List.subset_append_left _ _

/-- An image that completes the phase leaves no interrupted image. -/
theorem Visits.uninterrupted (visits : Visits phase lib process next)
    (completes : lib ∈ completedIn phase next.events)
    (uninterrupted : Uninterrupted phase process.events) : Uninterrupted phase next.events := by
  intro call called
  rcases visits.calls phase call called with before | ⟨_, own⟩
  · exact visits.subset phase (uninterrupted call before)
  · rw [own]
    exact completes

/-- The images `libs` remain to be initialised, after the images before them. -/
structure BeforeInit (libs : List (Option ImageId)) (process : Process) : Prop where
  uninterrupted : Uninterrupted .init process.events
  unfinalised : callsIn .fini process.events = [] ∨
    process.lifecycle.libs ⊆ completedIn .init process.events
  split : ∃ front, process.lifecycle.libs = front ++ libs ∧ front ⊆ completedIn .init process.events

theorem BeforeInit.visitable (before : BeforeInit (lib :: libs) process)
    (consistent : Consistent loader process) : Visitable loader process lib .init := by
  rcases before.split with ⟨front, split, completed⟩
  constructor
  · intro dep needed
    exact completed (consistent.ordering.ordered front lib libs split dep needed)
  · rcases before.unfinalised with unfinalised | initialised
    · rcases Classical.em (lib ∈ completedIn .init process.events) with done | undone
      · exact .inl done
      · refine .inr ⟨unfinalised, ?_⟩
        rintro call called rfl
        exact undone (before.uninterrupted call called)
    · apply Or.inl
      apply initialised
      rw [split]
      exact List.mem_append_right _ List.mem_cons_self

theorem BeforeInit.step (before : BeforeInit (lib :: libs) process)
    (visits : Visits .init lib process next) (completes : lib ∈ completedIn .init next.events) :
    BeforeInit libs next where
  uninterrupted := visits.uninterrupted completes before.uninterrupted
  unfinalised := by
    rcases before.unfinalised with unfinalised | initialised
    · apply Or.inl
      apply List.eq_nil_iff_forall_not_mem.mpr
      intro call called
      rcases visits.calls .fini call called with called | ⟨impossible, _⟩
      · rw [unfinalised] at called
        cases called
      · cases impossible
    · rw [visits.libs]
      exact .inr (List.Subset.trans initialised (visits.subset .init))
  split := by
    rcases before.split with ⟨front, split, completed⟩
    refine ⟨front ++ [lib], by rw [visits.libs, split, List.append_cons], ?_⟩
    apply List.append_subset.mpr
    exact ⟨List.Subset.trans completed (visits.subset .init), by simpa using completes⟩

/-- The images `libs` remain to be finalised, after the images initialised later. -/
structure BeforeFini (libs : List (Option ImageId)) (process : Process) : Prop where
  uninterrupted : Uninterrupted .fini process.events
  split : ∃ front, (completedIn .init process.events).reverse = front ++ libs ∧
    front ⊆ completedIn .fini process.events

theorem BeforeFini.visitable (before : BeforeFini (lib :: libs) process)
    (consistent : Consistent loader process) : Visitable loader process lib .fini := by
  rcases before.split with ⟨front, split, completed⟩
  refine ⟨?_, ?_, ?_⟩
  · rw [← List.mem_reverse, split]
    exact List.mem_append_right _ List.mem_cons_self
  · intro later pair
    have distinct := List.nodup_reverse.mpr consistent.distinct
    have reversed := List.reverse_sublist.mpr pair
    rw [split] at distinct reversed
    exact completed (mem_front_of_pair_sublist distinct (by simpa using reversed))
  · rcases Classical.em (lib ∈ completedIn .fini process.events) with done | undone
    · exact .inl done
    · apply Or.inr
      rintro call called rfl
      exact undone (before.uninterrupted call called)

theorem BeforeFini.step (before : BeforeFini (lib :: libs) process)
    (visits : Visits .fini lib process next) (completes : lib ∈ completedIn .fini next.events) :
    BeforeFini libs next where
  uninterrupted := visits.uninterrupted completes before.uninterrupted
  split := by
    have same : completedIn .init next.events = completedIn .init process.events := by
      rcases visits.completed .init with same | ⟨impossible, _⟩
      · exact same
      · cases impossible
    rcases before.split with ⟨front, split, completed⟩
    refine ⟨front ++ [lib], by rw [same, split, List.append_cons], ?_⟩
    apply List.append_subset.mpr
    exact ⟨List.Subset.trans completed (visits.subset .fini), by simpa using completes⟩

end DaveCC.Loading
