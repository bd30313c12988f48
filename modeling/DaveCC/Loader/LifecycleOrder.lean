import Mathlib.Data.List.Perm.Subperm
import DaveCC.Container.Pointwise
import DaveCC.Loader.Lifecycle
import DaveCC.Loop.While

/-!
# The order of the images

The depth-first visits put every image after the images it needs, whether or not they
succeed. When they succeed no library is missing, and no image needs itself.
-/

namespace DaveCC.Loading

open DaveCC.Container DaveCC.Graph DaveCC.Loop

/-- The images in the order of their entries. -/
def LifecycleState.libs (state : LifecycleState) : List (Option ImageId) :=
  state.initOrder.map LifecycleEntry.lib

namespace Loader

/-- What an image needs. The executable of a static loader needs nothing. -/
def needs (loader : Loader) : Option ImageId → List (Option ImageId)
  | none => []
  | some lib => ((loader.collectNeededDependencies lib).getD []).map some

/-- The images whose dependencies count: a static executable has none. -/
def images (loader : Loader) : List ImageId :=
  if loader.isStatic ∨ loader.dynamicLib = none then [] else loader.search

def Needs (loader : Loader) (lib dep : ImageId) : Prop :=
  ∃ deps, loader.collectNeededDependencies lib = some deps ∧ dep ∈ deps

/-- A library is missing, or an image needs itself in some number of steps. -/
def Unsortable (loader : Loader) : Prop :=
  ∃ lib ∈ loader.images, loader.collectNeededDependencies lib = none ∨
    Relation.TransGen loader.Needs lib lib

/-- Images need shared objects only, and what an image that is not one needs is loaded. -/
structure SharedDependencies (loader : Loader) : Prop where
  shared : ∀ lib ∈ loader.search, ∀ dep, loader.Needs lib dep → loader.isType .dyn dep
  found : ∀ lib ∈ loader.search, loader.isType .dyn lib = false →
    (loader.collectNeededDependencies lib).isSome

variable {loader : Loader} {state : LifecycleState} {lib dep : ImageId} {fuel : Nat}

/-- What an image needs is among the loaded images. -/
theorem mem_search_of_needs (needs : loader.Needs lib dep) : dep ∈ loader.search := by
  rcases needs with ⟨deps, collected, listed⟩
  rw [collectNeededDependencies] at collected
  split at collected
  · cases collected
    cases listed
  · next entries _ =>
      simp only at collected
      split_ifs at collected
      rcases exists_mem_related (mapM_eq_some_iff.mp collected).flip listed with ⟨entry, _, found⟩
      exact List.mem_of_find?_eq_some found

theorem mem_needs {node : Option ImageId} :
    node ∈ loader.needs (some lib) ↔ ∃ dep, loader.Needs lib dep ∧ node = some dep := by
  rw [needs]
  constructor
  · intro needed
    rcases List.mem_map.mp needed with ⟨dep, listed, rfl⟩
    cases collected : loader.collectNeededDependencies lib with
    | none =>
      rw [collected] at listed
      cases listed
    | some deps =>
      rw [collected] at listed
      exact ⟨dep, ⟨deps, collected, listed⟩, rfl⟩
  · rintro ⟨dep, ⟨deps, collected, listed⟩, rfl⟩
    rw [collected]
    exact List.mem_map_of_mem listed

/-- Every image of the order has its dependencies, and they come before it. -/
structure Ordering (loader : Loader) (state : LifecycleState) : Prop where
  nodup : state.libs.Nodup
  ordered : DependencyOrdered loader.needs state.libs
  collected : ∀ lib, some lib ∈ state.libs → (loader.collectNeededDependencies lib).isSome

/-- Every shared object has an entry. -/
def Complete (loader : Loader) (state : LifecycleState) : Prop :=
  ∀ lib ∈ loader.images, loader.isType .dyn lib → some lib ∈ state.libs

instance (loader : Loader) (state : LifecycleState) : Decidable (loader.Complete state) :=
  inferInstanceAs (Decidable (∀ lib ∈ loader.images, loader.isType .dyn lib → some lib ∈ state.libs))

theorem images_subset (listed : lib ∈ loader.images) : lib ∈ loader.search := by
  rw [images] at listed
  split_ifs at listed
  · cases listed
  · exact listed

/-- A complete order exists only when nothing is missing and nothing needs itself. -/
theorem Ordering.not_unsortable (ordering : loader.Ordering state)
    (complete : loader.Complete state) (dependencies : loader.SharedDependencies) :
    ¬loader.Unsortable := by
  rintro ⟨lib, listed, missing | cycle⟩
  · have inSearch := images_subset listed
    have collected : (loader.collectNeededDependencies lib).isSome := by
      cases shared : loader.isType .dyn lib with
      | false => exact dependencies.found lib inSearch shared
      | true => exact ordering.collected lib (complete lib listed shared)
    rw [missing] at collected
    cases collected
  · have inSearch := images_subset listed
    have shared : loader.isType .dyn lib := by
      rcases Relation.TransGen.tail'_iff.mp cycle with ⟨last, path, needed⟩
      apply dependencies.shared last _ lib needed
      cases path with
      | refl => exact inSearch
      | tail _ before => exact mem_search_of_needs before
    have placed := complete lib listed shared
    apply ordering.ordered.acyclic placed
    exact cycle.lift some fun _ _ needed => mem_needs.mpr ⟨_, needed, rfl⟩

/-! ## Visits -/

/-- An order that no phase has visited. -/
structure Sorted (loader : Loader) (state : LifecycleState) : Prop extends
    Ordering loader state where
  successful : state.successfulInit = []
  fresh : ∀ entry ∈ state.initOrder, ∀ phase, entry.phaseDone phase = false

/-- A visit may begin: the images under visit have no entries, and the visits may nest
deep enough for the others. -/
structure Ready (loader : Loader) (fuel : Nat) (context : LifecycleSortContext) : Prop where
  sorted : loader.Sorted context.state
  apart : ∀ visited ∈ context.visiting, some visited ∉ context.state.libs
  distinct : context.visiting.Nodup
  inside : context.visiting ⊆ loader.search
  enough : loader.search.length ≤ fuel + context.visiting.length

/-- What visits leave. -/
structure Visited (loader : Loader) (context after : LifecycleSortContext) : Prop where
  sorted : loader.Sorted after.state
  visiting : after.visiting = context.visiting
  grows : context.state.libs ⊆ after.state.libs
  apart : ∀ visited ∈ context.visiting, some visited ∉ after.state.libs

variable {context after : LifecycleSortContext}

theorem Ready.visited (ready : loader.Ready fuel context) : loader.Visited context context :=
  ⟨ready.sorted, rfl, List.Subset.refl _, ready.apart⟩

theorem Visited.trans {last : LifecycleSortContext} (first : loader.Visited context after)
    (second : loader.Visited after last) : loader.Visited context last where
  sorted := second.sorted
  visiting := second.visiting.trans first.visiting
  grows := List.Subset.trans first.grows second.grows
  apart := by
    rw [← first.visiting]
    exact second.apart

theorem Visited.ready (visited : loader.Visited context after)
    (ready : loader.Ready fuel context) : loader.Ready fuel after where
  sorted := visited.sorted
  apart := by
    rw [visited.visiting]
    exact visited.apart
  distinct := by
    rw [visited.visiting]
    exact ready.distinct
  inside := by
    rw [visited.visiting]
    exact ready.inside
  enough := by
    rw [visited.visiting]
    exact ready.enough

/-- A visit returns, and an image whose visit succeeds has an entry. -/
def VisitReturns (loader : Loader) (fuel : Nat) (lib : ImageId) (context : LifecycleSortContext) :
    Prop :=
  ∃ result, loader.lifecycleVisitForSort fuel lib context = some result ∧
    loader.Visited context result.2 ∧ (result.1 = true → some lib ∈ result.2.state.libs)

/-- Visits of shared objects one after the other. -/
theorem exists_visitAll {items : List ImageId} (ready : loader.Ready fuel context)
    (inside : items ⊆ loader.search)
    (visits : ∀ lib ∈ loader.search, ∀ context, loader.Ready fuel context →
      loader.VisitReturns fuel lib context) :
    ∃ result, items.foldlM
        (fun result lib =>
          if result.1 && loader.isType .dyn lib then loader.lifecycleVisitForSort fuel lib result.2
          else some result)
        (true, context) = some result ∧
      loader.Visited context result.2 ∧
      (result.1 = true → ∀ lib ∈ items, loader.isType .dyn lib → some lib ∈ result.2.state.libs) := by
  apply exists_foldlM (fun front (result : Bool × LifecycleSortContext) =>
    loader.Visited context result.2 ∧
      (result.1 = true → ∀ lib ∈ front, loader.isType .dyn lib → some lib ∈ result.2.state.libs))
  · rintro front lib back ⟨sorted, middle⟩ split ⟨visited, placed⟩
    have listed : lib ∈ loader.search := inside (by simp [split])
    cases sorted with
    | false => exact ⟨(false, middle), rfl, visited, fun impossible => by cases impossible⟩
    | true =>
      cases shared : loader.isType .dyn lib with
      | false =>
        refine ⟨(true, middle), by simp, visited, ?_⟩
        intro _ other inside isShared
        rcases List.mem_append.mp inside with inside | inside
        · exact placed rfl other inside isShared
        · rw [List.mem_singleton.mp inside, shared] at isShared
          cases isShared
      | true =>
        rcases visits lib listed middle (visited.ready ready) with ⟨result, returns, next, own⟩
        refine ⟨result, by simpa [shared] using returns, visited.trans next, ?_⟩
        intro succeeds other inside isShared
        rcases List.mem_append.mp inside with inside | inside
        · exact next.grows (placed rfl other inside isShared)
        · rw [List.mem_singleton.mp inside]
          exact own succeeds
  · exact ⟨ready.visited, fun _ lib inside => by cases inside⟩

/-- The order and the completed images are all that matters. -/
theorem Sorted.congr {other : LifecycleState} (sorted : loader.Sorted state)
    (order : other.initOrder = state.initOrder)
    (successful : other.successfulInit = state.successfulInit) : loader.Sorted other := by
  have libs : other.libs = state.libs := by rw [LifecycleState.libs, order, LifecycleState.libs]
  constructor
  · constructor
    · rw [libs]
      exact sorted.nodup
    · rw [libs]
      exact sorted.ordered
    · rw [libs]
      exact sorted.collected
  · rw [successful]
    exact sorted.successful
  · rw [order]
    exact sorted.fresh

theorem libs_append (entry : LifecycleEntry) :
    (state.append entry).libs = state.libs ++ [entry.lib] := by
  rw [LifecycleState.append, LifecycleState.libs, List.map_append]
  rfl

theorem isSome_findEntry {key : Option ImageId} :
    (state.findEntry key).isSome ↔ key ∈ state.libs := by
  rw [LifecycleState.findEntry, List.find?_isSome, LifecycleState.libs, List.mem_map]
  simp

/-- An image that has no entry is put after what it needs. -/
theorem Sorted.append (sorted : loader.Sorted state) {entry : LifecycleEntry}
    (fresh : ∀ phase, entry.phaseDone phase = false) (outside : entry.lib ∉ state.libs)
    (collected : ∀ lib, entry.lib = some lib → (loader.collectNeededDependencies lib).isSome)
    (before : ∀ dep ∈ loader.needs entry.lib, dep ∈ state.libs) :
    loader.Sorted (state.append entry) where
  nodup := by
    rw [libs_append]
    exact nodup_concat sorted.nodup outside
  ordered := by
    rw [libs_append]
    exact sorted.ordered.concat before
  collected := by
    intro lib listed
    rw [libs_append, List.mem_append, List.mem_singleton] at listed
    rcases listed with listed | own
    · exact sorted.collected lib listed
    · exact collected lib own.symm
  successful := sorted.successful
  fresh := by
    intro other listed
    rcases List.mem_append.mp listed with listed | own
    · exact sorted.fresh other listed
    · rw [List.mem_singleton.mp own]
      exact fresh

/-- The images under visit when the visit of another one begins. -/
theorem Ready.enter (ready : loader.Ready (fuel + 1) context) (listed : lib ∈ loader.search)
    (outside : lib ∉ context.visiting) (unplaced : some lib ∉ context.state.libs) :
    loader.Ready fuel (context.enter lib) where
  sorted := ready.sorted
  apart := by
    intro visited inside
    rcases List.mem_append.mp inside with inside | own
    · exact ready.apart visited inside
    · rw [List.mem_singleton.mp own]
      exact unplaced
  distinct := nodup_concat ready.distinct outside
  inside := List.append_subset.mpr ⟨ready.inside, by simpa using listed⟩
  enough := by
    have enough := ready.enough
    simp only [LifecycleSortContext.enter, List.length_append, List.length_singleton]
    omega

/-- The end of a visit whose dependencies were visited from `context.enter lib`. -/
theorem Visited.leave (visited : loader.Visited (context.enter lib) after) :
    loader.Visited context after.leave where
  sorted := visited.sorted
  visiting := by
    rw [LifecycleSortContext.leave, visited.visiting]
    exact List.dropLast_concat
  grows := visited.grows
  apart := fun other inside => visited.apart other (List.mem_append_left _ inside)

theorem Visited.place (visited : loader.Visited (context.enter lib) after)
    (sorted : loader.Sorted (after.append (loader.sortedEntry lib)).state)
    (outside : lib ∉ context.visiting) :
    loader.Visited context (after.append (loader.sortedEntry lib)).leave where
  sorted := sorted
  visiting := visited.leave.visiting
  grows := by
    intro other listed
    rw [LifecycleSortContext.leave, LifecycleSortContext.append, libs_append]
    exact List.mem_append_left _ (visited.grows listed)
  apart := by
    intro other inside
    rw [LifecycleSortContext.leave, LifecycleSortContext.append, libs_append, List.mem_append,
      List.mem_singleton, sortedEntry, Option.some.injEq, not_or]
    refine ⟨visited.apart other (List.mem_append_left _ inside), ?_⟩
    rintro rfl
    exact outside inside

/-- Visits nest no deeper than there are images. -/
theorem Ready.placed_or_visiting (ready : loader.Ready 0 context) (listed : lib ∈ loader.search) :
    lib ∈ context.visiting := by
  by_contra outside
  have distinct : (context.visiting ++ [lib]).Nodup := nodup_concat ready.distinct outside
  have shorter := (List.subperm_of_subset distinct
    (List.append_subset.mpr ⟨ready.inside, by simpa using listed⟩)).length_le
  have enough := ready.enough
  rw [List.length_append, List.length_singleton] at shorter
  omega

theorem visitReturns (dependencies : loader.SharedDependencies) (listed : lib ∈ loader.search)
    (ready : loader.Ready fuel context) : loader.VisitReturns fuel lib context := by
  induction fuel generalizing lib context with
  | zero =>
    rw [VisitReturns, lifecycleVisitForSort, if_pos (ready.placed_or_visiting listed)]
    exact ⟨_, rfl, ⟨ready.sorted.congr rfl rfl, rfl, List.Subset.refl _, ready.apart⟩,
      fun impossible => by cases impossible⟩
  | succ fuel ih =>
    rw [VisitReturns, lifecycleVisitForSort]
    split_ifs with cycle placed
    · exact ⟨_, rfl, ⟨ready.sorted.congr rfl rfl, rfl, List.Subset.refl _, ready.apart⟩,
        fun impossible => by cases impossible⟩
    · exact ⟨_, rfl, ready.visited, fun _ => isSome_findEntry.mp placed⟩
    · have unplaced : some lib ∉ context.state.libs := fun inside =>
        placed (isSome_findEntry.mpr inside)
      have entered := ready.enter listed cycle unplaced
      simp only
      split
      · exact ⟨_, rfl, ⟨ready.sorted.congr rfl rfl, entered.visited.leave.visiting,
          List.Subset.refl _, ready.apart⟩, fun impossible => by cases impossible⟩
      · next deps collected =>
        have inside : deps ⊆ loader.search := fun dep needed =>
          mem_search_of_needs ⟨deps, collected, needed⟩
        rcases exists_visitAll entered inside
          (fun lib listed context ready => ih listed ready) with ⟨result, returns, visited, all⟩
        rw [returns]
        refine ⟨_, rfl, ?_⟩
        obtain ⟨succeeded, after⟩ := result
        cases succeeded with
        | false => exact ⟨visited.leave, fun impossible => by cases impossible⟩
        | true =>
          have fresh : some lib ∉ after.state.libs :=
            visited.apart lib (List.mem_append_right _ (List.mem_singleton_self lib))
          have sorted : loader.Sorted (after.append (loader.sortedEntry lib)).state := by
            apply visited.sorted.append
            · intro phase
              cases phase <;> rfl
            · exact fresh
            · rintro other same
              cases same
              rw [collected]
              rfl
            · intro node needed
              rcases mem_needs.mp needed with ⟨dep, needs, rfl⟩
              have shared := dependencies.shared lib listed dep needs
              rcases needs with ⟨others, same, needed⟩
              rw [collected] at same
              cases same
              exact all rfl dep needed shared
          refine ⟨visited.place sorted cycle, fun _ => ?_⟩
          simp [LifecycleSortContext.leave, LifecycleSortContext.append, libs_append, sortedEntry]

theorem Sorted.empty : loader.Sorted {} where
  nodup := List.nodup_nil
  ordered := .nil
  collected := fun _ impossible => by cases impossible
  successful := rfl
  fresh := fun _ impossible => by cases impossible

/-- The main image comes last, after everything it needs. -/
theorem Sorted.addMainEntry (sorted : loader.Sorted state)
    (dependencies : loader.SharedDependencies) {main : ImageId}
    (isMain : loader.dynamicLib = some main)
    (complete : ∀ lib ∈ loader.search, loader.isType .dyn lib → some lib ∈ state.libs) :
    loader.Sorted (Loader.addMainEntry state main) ∧
      state.libs ⊆ (Loader.addMainEntry state main).libs := by
  have inSearch := loader.registered main isMain
  rw [Loader.addMainEntry]
  split_ifs with found
  · have libs : ∀ order : List LifecycleEntry, (order.map fun entry =>
        if entry.lib = some main then { entry with isExecutable := true } else entry).map
          LifecycleEntry.lib = order.map LifecycleEntry.lib := by
      intro order
      rw [List.map_map]
      apply List.map_congr_left
      intro entry _
      simp only [Function.comp_apply]
      split <;> rfl
    rw [LifecycleState.libs, LifecycleState.libs, libs]
    refine ⟨⟨⟨?_, ?_, ?_⟩, sorted.successful, ?_⟩, List.Subset.refl _⟩
    · rw [LifecycleState.libs, libs]
      exact sorted.nodup
    · rw [LifecycleState.libs, libs]
      exact sorted.ordered
    · rw [LifecycleState.libs, libs]
      exact sorted.collected
    · intro entry listed phase
      rcases List.mem_map.mp listed with ⟨before, inside, rfl⟩
      have fresh := sorted.fresh before inside phase
      split
      · cases phase <;> exact fresh
      · exact fresh
  · have outside : some main ∉ state.libs := fun inside => found (isSome_findEntry.mpr inside)
    constructor
    · apply sorted.append
      · intro phase
        cases phase <;> rfl
      · exact outside
      · rintro lib same
        cases same
        cases shared : loader.isType .dyn main with
        | false => exact dependencies.found main inSearch shared
        | true => exact absurd (complete main inSearch shared) outside
      · intro node needed
        rcases mem_needs.mp needed with ⟨dep, needs, rfl⟩
        exact complete dep (mem_search_of_needs needs) (dependencies.shared main inSearch dep needs)
    · rw [libs_append]
      exact List.subset_append_left _ _

/-- What `LoaderLifecycleStateInit` leaves: an order, also when it fails, and a complete one
when it succeeds. -/
theorem exists_lifecycleStateInit (dependencies : loader.SharedDependencies) (guest : Guest)
    (empty : state.initOrder = []) :
    ∃ result, loader.lifecycleStateInit state guest = some result ∧ loader.Sorted result.2.1 ∧
      (result.1 = true → loader.Complete result.2.1) := by
  rw [lifecycleStateInit, empty]
  simp only [List.isEmpty_nil, Bool.not_true, Bool.false_eq_true, if_false]
  split
  · next isStatic =>
    refine ⟨_, rfl, ?_, ?_⟩
    · apply Sorted.empty.append
      · intro phase
        cases phase <;> rfl
      · exact List.not_mem_nil
      · rintro lib impossible
        cases impossible
      · intro dep impossible
        cases impossible
    · intro _ lib listed
      have static : loader.isStatic ∨ loader.dynamicLib = none := by
        split_ifs at isStatic with static
        · exact .inl static
        · exact .inr isStatic
      rw [images, if_pos static] at listed
      cases listed
  · next main isMain =>
    have isMain : loader.dynamicLib = some main := by
      split_ifs at isMain
      exact isMain
    have ready : loader.Ready loader.search.length
        { state := {}, visiting := [], guest := guest } :=
      ⟨.empty, fun _ impossible => (by cases impossible), List.nodup_nil, List.nil_subset _,
        Nat.le_refl _⟩
    rcases exists_visitAll ready (List.Subset.refl _)
      (fun lib listed context ready => visitReturns dependencies listed ready) with
      ⟨⟨succeeded, after⟩, returns, visited, complete⟩
    rw [sortImages, returns]
    refine ⟨_, rfl, ?_⟩
    cases succeeded with
    | false => exact ⟨visited.sorted, fun impossible => by cases impossible⟩
    | true =>
      obtain ⟨sorted, grows⟩ := visited.sorted.addMainEntry dependencies isMain (complete rfl)
      refine ⟨sorted, fun _ lib listed shared => ?_⟩
      exact grows (complete rfl lib (images_subset listed) shared)

end Loader

end DaveCC.Loading
