import DaveCC.Serialize.Interning
import Mathlib.Algebra.Order.BigOperators.Group.List

/-!
# Draining

Each step of the drain writes the next object of a pool and interns what it refers to.
The objects already written keep their records while the tables grow, and the tables hold
reachable objects only, so the drain ends; then they hold all of them.
-/

namespace DaveCC.Serialize

open Loop (runWhile)

variable {graph : FiniteGraph} {ctx next : SerializeContext} {kind : SerialKind} {pointer : Pointer}

def SerializeContext.HasRoot (graph : ObjectGraph) (ctx : SerializeContext) : Root → Prop
  | .object kind pointer => graph.Internable kind pointer → pointer ∈ ctx.objects kind
  | .string str => str ∈ ctx.strings

variable {root : Root}

theorem Grows.hasRoot (grows : Grows ctx next) (has : ctx.HasRoot graph.toObjectGraph root) :
    next.HasRoot graph.toObjectGraph root := by
  cases root with
  | object kind pointer => exact fun internable => (grows.objects kind).subset (has internable)
  | string str => exact grows.strings.subset has

theorem interned_init (graph : FiniteGraph) :
    Interned graph { writingLtoIr := graph.writingLtoIr } where
  flag := rfl
  objects _ := Indexed.empty
  strings := Indexed.empty
  pool := rfl
  lens := rfl

theorem Interned.internRoot (separable : graph.Separable) (interned : Interned graph ctx)
    (isRoot : root ∈ graph.roots) :
    Interned graph (graph.internRoot ctx root) ∧ Extends ctx (graph.internRoot ctx root) ∧
      (graph.internRoot ctx root).HasRoot graph.toObjectGraph root := by
  cases root with
  | object kind pointer =>
    obtain ⟨next, interns, internedNext, grows, inside⟩ :=
      interned.intern kind pointer separable fun internable =>
        .root isRoot internable
    have runs : graph.internRoot ctx (.object kind pointer) = next := congrArg Prod.snd interns
    rw [runs]
    exact ⟨internedNext, grows, inside⟩
  | string str =>
    obtain ⟨next, interns, internedNext, grows, inside⟩ :=
      interned.internString separable (.inl isRoot)
    have runs : graph.internRoot ctx (.string str) = next := congrArg Prod.snd interns
    rw [runs]
    exact ⟨internedNext, grows, inside⟩

theorem Interned.internRoots (separable : graph.Separable) (interned : Interned graph ctx)
    {roots : List Root} (areRoots : ∀ root ∈ roots, root ∈ graph.roots) :
    Interned graph (roots.foldl graph.internRoot ctx) ∧
      Extends ctx (roots.foldl graph.internRoot ctx) ∧
      ∀ root ∈ roots, (roots.foldl graph.internRoot ctx).HasRoot graph.toObjectGraph root := by
  induction roots generalizing ctx with
  | nil => exact ⟨interned, .refl ctx, fun _ impossible => absurd impossible List.not_mem_nil⟩
  | cons root rest ih =>
    have ⟨internedNext, grows, has⟩ :=
      interned.internRoot separable (areRoots root List.mem_cons_self)
    have ⟨internedLast, growsRest, hasRest⟩ :=
      ih internedNext fun other inside => areRoots other (List.mem_cons_of_mem _ inside)
    refine ⟨internedLast, grows.trans growsRest, ?_⟩
    intro other inside
    rcases List.mem_cons.mp inside with rfl | inside
    · exact growsRest.toGrows.hasRoot has
    · exact hasRest other inside

/-- The object at a place of its pool is written: its record is there, and the context has
what it refers to. -/
def Written (graph : ObjectGraph) (ctx : SerializeContext) (kind : SerialKind) (index : ℕ)
    (pointer : Pointer) : Prop :=
  (∀ field ∈ graph.fields kind pointer, ctx.Has graph field) ∧
    ∃ buf, (ctx.serialized kind)[index]? = some buf ∧ buf.IsWriter ∧
      buf.wireBufferContents = graph.record ctx kind pointer

/-- What holds between the steps of the drain. -/
structure Draining (graph : FiniteGraph) (ctx : SerializeContext) : Prop
    extends Interned graph ctx where
  noError : ctx.error = false
  processed : ∀ kind, ctx.processed kind ≤ (ctx.objects kind).length
  serialized : ∀ kind, (ctx.serialized kind).length = ctx.processed kind
  hasRoots : ∀ root ∈ graph.roots, ctx.HasRoot graph.toObjectGraph root
  written : ∀ kind index pointer, index < ctx.processed kind →
    (ctx.objects kind)[index]? = some pointer →
    Written graph.toObjectGraph ctx kind index pointer

theorem draining_start (separable : graph.Separable) :
    Draining graph (graph.roots.foldl graph.internRoot { writingLtoIr := graph.writingLtoIr }) := by
  have ⟨interned, grows, has⟩ :=
    (interned_init graph).internRoots separable fun _ inside => inside
  exact
    { toInterned := interned
      noError := grows.error
      processed := fun kind => by
        rw [grows.processed]
        exact Nat.zero_le _
      serialized := fun kind => by
        rw [grows.processed, grows.serialized]
        rfl
      hasRoots := has
      written := fun kind index pointer before => by
        rw [grows.processed] at before
        exact absurd before (Nat.not_lt_zero _) }

variable {index : ℕ}

theorem getElem?_of_grows {Item : Type} {front whole : List Item} {item : Item}
    (isPrefix : front <+: whole) (found : front[index]? = some item) :
    whole[index]? = some item := by
  obtain ⟨back, rfl⟩ := isPrefix
  rw [List.getElem?_append_left (List.getElem?_eq_some_iff.mp found).1]
  exact found

/-- A written object stays written while the tables and the records grow. -/
theorem Written.of_grows (separable : graph.Separable) (interned : Interned graph ctx)
    (internedNext : Interned graph next) (grows : Grows ctx next)
    (serialized : ctx.serialized kind <+: next.serialized kind)
    (written : Written graph.toObjectGraph ctx kind index pointer) :
    Written graph.toObjectGraph next kind index pointer := by
  have ⟨has, buf, found, writer, contents⟩ := written
  refine ⟨fun field isField => grows.has (has field isField), buf, ?_, writer, ?_⟩
  · exact getElem?_of_grows serialized found
  · rw [record_of_grows separable interned internedNext grows has]
    exact contents

/-- A context without its progress. -/
theorem Interned.setProgress (interned : Interned graph ctx) (processed : SerialKind → ℕ)
    (serialized : SerialKind → List WireBuffer) (error : Bool) :
    Interned graph
      { ctx with processed := processed, serialized := serialized, error := error } :=
  ⟨interned.flag, interned.objects, interned.strings, interned.pool, interned.lens⟩

/-- A step writes the next object of a pool. -/
theorem Draining.drainObject (separable : graph.Separable) (draining : Draining graph ctx)
    (more : ctx.processed kind < (ctx.objects kind).length) :
    ∃ next, drainObject graph.registry kind ctx = next ∧ Draining graph next ∧
      next.processed = Function.update ctx.processed kind (ctx.processed kind + 1) := by
  obtain ⟨pointer, isNext⟩ : ∃ pointer, (ctx.objects kind)[ctx.processed kind]? = some pointer :=
    ⟨_, List.getElem?_eq_getElem more⟩
  have reachable := (draining.objects kind).known pointer (List.mem_of_getElem? isNext)
  have interned := draining.toInterned
  let counted := { ctx with
    processed := Function.update ctx.processed kind (ctx.processed kind + 1) }
  have internedCounted : Interned graph counted := interned.setProgress _ _ _
  obtain ⟨after, buf, runs, internedAfter, grows, has, writer, contents⟩ :=
    internedCounted.write separable reachable 32
  let next := { after with
    error := after.error || !true
    serialized := Function.update after.serialized kind (after.serialized kind ++ [buf]) }
  have internedNext : Interned graph next := internedAfter.setProgress _ _ _
  have growsNext : Grows ctx next := ⟨grows.objects, grows.strings⟩
  have otherObjects (other : SerialKind) : ctx.objects other <+: next.objects other :=
    grows.objects other
  have ownRecords : next.serialized kind = ctx.serialized kind ++ [buf] := by
    show Function.update after.serialized kind _ kind = _
    rw [Function.update_self, grows.serialized]
  have otherRecords {other : SerialKind} (ne : other ≠ kind) :
      next.serialized other = ctx.serialized other := by
    show Function.update after.serialized kind _ other = _
    rw [Function.update_of_ne ne, grows.serialized]
  have records (other : SerialKind) : ctx.serialized other <+: next.serialized other := by
    by_cases same : other = kind
    · rw [same, ownRecords]
      exact List.prefix_append _ _
    · rw [otherRecords same]
  have processed : next.processed = Function.update ctx.processed kind (ctx.processed kind + 1) :=
    grows.processed
  refine ⟨next, ?_, ?_, processed⟩
  · unfold Serialize.drainObject
    simp only [ObjectGraph.registry, Option.bind_some, List.getD_eq_getElem?_getD, isNext,
      Option.getD_some]
    rw [show graph.write kind pointer _ (wireBufferInitOwned 32) = _ from runs]
  · exact
      { toInterned := internedNext
        noError := by
          show (after.error || !true) = false
          rw [grows.error]
          exact Bool.or_eq_false_iff.mpr ⟨draining.noError, rfl⟩
        processed := by
          intro other
          rw [processed]
          apply Nat.le_trans _ (otherObjects other).length_le
          by_cases same : other = kind
          · rw [same, Function.update_self]
            exact more
          · rw [Function.update_of_ne same]
            exact draining.processed other
        serialized := by
          intro other
          rw [processed]
          by_cases same : other = kind
          · rw [same, Function.update_self, ownRecords, List.length_append,
              draining.serialized kind]
            rfl
          · rw [Function.update_of_ne same, otherRecords same]
            exact draining.serialized other
        hasRoots := fun root isRoot => growsNext.hasRoot (draining.hasRoots root isRoot)
        written := by
          intro other index object before found
          have old (earlier : index < ctx.processed other) :
              Written graph.toObjectGraph next other index object := by
            have inside := Nat.lt_of_lt_of_le earlier (draining.processed other)
            have same := getElem?_of_grows (otherObjects other) (List.getElem?_eq_getElem inside)
            rw [found] at same
            cases same
            exact (draining.written other index _ earlier (List.getElem?_eq_getElem inside)).of_grows
              separable interned internedNext growsNext (records other)
          rw [processed] at before
          by_cases same : other = kind
          · subst same
            rw [Function.update_self] at before
            rcases Nat.lt_succ_iff_lt_or_eq.mp before with earlier | rfl
            · exact old earlier
            · rw [getElem?_of_grows (otherObjects other) isNext] at found
              cases found
              refine ⟨has, buf, ?_, writer, ?_⟩
              · rw [ownRecords, ← draining.serialized other]
                exact List.getElem?_concat_length
              · rw [record_of_grows separable internedAfter internedNext
                  ⟨fun _ => List.prefix_rfl, List.prefix_rfl⟩ has]
                exact contents
          · rw [Function.update_of_ne same] at before
            exact old before }

/-! ## Termination -/

/-- How many objects are written. -/
def SerializeContext.total (ctx : SerializeContext) : ℕ :=
  (SerialKind.all.map ctx.processed).sum

/-- How many objects there are to write. -/
noncomputable def ObjectGraph.bound (graph : ObjectGraph) : ℕ :=
  (SerialKind.all.map fun kind => { pointer | graph.Reachable kind pointer }.ncard).sum

theorem total_of_update {counts : SerialKind → ℕ} :
    (SerialKind.all.map (Function.update counts kind (counts kind + 1))).sum =
      (SerialKind.all.map counts).sum + 1 := by
  cases kind <;> simp [SerialKind.all] <;> omega

theorem Draining.total_le (draining : Draining graph ctx) : ctx.total ≤ graph.bound := by
  apply List.sum_le_sum
  intro kind _
  apply Nat.le_trans (draining.processed kind)
  apply Nat.le_of_lt_succ
  apply length_lt_of_ncard_lt (draining.objects kind).nodup (draining.objects kind).known _
    (Nat.lt_succ_self _)
  apply (graph.finite.image Prod.snd).subset
  intro pointer reachable
  exact ⟨(kind, pointer), reachable, rfl⟩

/-- Every object in a table of the kind is written. -/
def SerializeContext.Drained (ctx : SerializeContext) (kind : SerialKind) : Prop :=
  ctx.processed kind = (ctx.objects kind).length

/-- What a pass over some kinds has done: either something, or nothing because these
kinds were drained. -/
structure PassDone (graph : FiniteGraph) (start : SerializeContext) (kinds : List SerialKind)
    (state : Bool × SerializeContext) : Prop where
  draining : Draining graph state.2
  total : start.total ≤ state.2.total
  progress : state.1 = true → start.total < state.2.total
  idle : state.1 = false → state.2 = start ∧ ∀ kind ∈ kinds, kind ≠ .kString → start.Drained kind

variable {fuel : ℕ} {state : Bool × SerializeContext}

theorem exists_drainPool (separable : graph.Separable) (enough : graph.bound ≤ fuel)
    {start : SerializeContext} {kinds : List SerialKind} (done : PassDone graph start kinds state) :
    ∃ final, drainPool graph.registry fuel kind state = some final ∧
      PassDone graph start (kinds ++ [kind]) final := by
  have step : ∀ state : Bool × SerializeContext, PassDone graph start kinds state →
      decide (state.2.processed kind < (state.2.objects kind).length) = true →
      ∃ next, some (true, drainObject graph.registry kind state.2) = some next ∧
        PassDone graph start kinds next ∧
        graph.bound - next.2.total < graph.bound - state.2.total := by
    intro state done continues
    obtain ⟨next, runs, draining, processed⟩ :=
      done.draining.drainObject separable (of_decide_eq_true continues)
    have total : next.total = state.2.total + 1 := by
      rw [SerializeContext.total, processed, total_of_update]
      rfl
    have bound := draining.total_le
    have started := done.total
    refine ⟨(true, next), by rw [runs], ⟨draining, ?_, ?_, ?_⟩, ?_⟩
    · show start.total ≤ next.total
      omega
    · intro _
      show start.total < next.total
      omega
    · intro impossible
      cases impossible
    · show graph.bound - next.total < graph.bound - state.2.total
      omega
  obtain ⟨final, runs, finalDone, exits⟩ :=
    Loop.exists_runWhile (PassDone graph start kinds) (fun state => graph.bound - state.2.total)
      step done (Nat.le_trans (Nat.sub_le _ _) enough)
  refine ⟨final, runs, finalDone.draining, finalDone.total, finalDone.progress, ?_⟩
  intro noProgress
  have ⟨same, drained⟩ := finalDone.idle noProgress
  refine ⟨same, ?_⟩
  intro other inside isObject
  rcases List.mem_append.mp inside with inside | isKind
  · exact drained other inside isObject
  · have atEnd := of_decide_eq_false exits
    rw [List.mem_singleton.mp isKind, ← same]
    exact Nat.le_antisymm (finalDone.draining.processed kind) (Nat.le_of_not_lt atEnd)

theorem exists_drainPass (separable : graph.Separable) (enough : graph.bound ≤ fuel)
    (draining : Draining graph ctx) :
    ∃ final, drainPass graph.registry fuel ctx = some final ∧
      PassDone graph ctx SerialKind.all final := by
  apply Loop.exists_foldlM (PassDone graph ctx)
  · intro front kind back state _ done
    split_ifs with isString
    · refine ⟨state, rfl, done.draining, done.total, done.progress, ?_⟩
      intro noProgress
      have ⟨same, drained⟩ := done.idle noProgress
      refine ⟨same, ?_⟩
      intro other inside isObject
      rcases List.mem_append.mp inside with inside | isKind
      · exact drained other inside isObject
      · exact absurd (List.mem_singleton.mp isKind ▸ isString) isObject
    · exact exists_drainPool separable enough done
  · refine ⟨draining, Nat.le_refl _, ?_, ?_⟩
    · intro impossible
      cases impossible
    · exact fun _ => ⟨rfl, fun _ impossible => absurd impossible List.not_mem_nil⟩

theorem SerialKind.mem_all (kind : SerialKind) : kind ∈ SerialKind.all := by
  cases kind <;> decide

/-- What holds between the passes: without progress, every table is drained. -/
structure BetweenPasses (graph : FiniteGraph) (state : Bool × SerializeContext) : Prop where
  draining : Draining graph state.2
  drained : state.1 = false → ∀ kind, kind ≠ .kString → state.2.Drained kind

/-- The passes still to come. -/
noncomputable def passesLeft (graph : ObjectGraph) (state : Bool × SerializeContext) : ℕ :=
  if state.1 then graph.bound - state.2.total + 1 else 0

theorem BetweenPasses.pass (separable : graph.Separable) (enough : graph.bound ≤ fuel)
    (between : BetweenPasses graph state) (continues : (state.1 && !state.2.error) = true) :
    ∃ next, drainPass graph.registry fuel state.2 = some next ∧ BetweenPasses graph next ∧
      passesLeft graph.toObjectGraph next < passesLeft graph.toObjectGraph state := by
  have ⟨progress, _⟩ := Bool.and_eq_true_iff.mp continues
  obtain ⟨next, runs, done⟩ := exists_drainPass separable enough between.draining
  refine ⟨next, runs, ⟨done.draining, ?_⟩, ?_⟩
  · intro noProgress kind isObject
    have ⟨same, drained⟩ := done.idle noProgress
    rw [same]
    exact drained kind kind.mem_all isObject
  · rw [passesLeft, passesLeft, if_pos progress]
    cases made : next.1 with
    | false => exact Nat.succ_pos _
    | true =>
      have more := done.progress made
      have bound := done.draining.total_le
      rw [if_pos rfl]
      omega

/-- The drain terminates, with every table drained. -/
theorem exists_serialize (separable : graph.Separable) :
    ∃ final, graph.serialize (graph.bound + 1) = some (true, final) ∧ Draining graph final ∧
      ∀ kind, kind ≠ .kString → final.Drained kind := by
  have start : BetweenPasses graph
      (true, graph.roots.foldl graph.internRoot { writingLtoIr := graph.writingLtoIr }) :=
    ⟨draining_start separable, fun impossible => nomatch impossible⟩
  obtain ⟨final, runs, between, exits⟩ :=
    Loop.exists_runWhile (BetweenPasses graph) (passesLeft graph.toObjectGraph)
      (fun _ between continues => between.pass separable (Nat.le_succ graph.bound) continues)
      start (Nat.succ_le_succ (Nat.sub_le graph.bound _))
  have noError := between.draining.noError
  have noProgress : final.1 = false := by
    rw [noError] at exits
    simpa using exits
  refine ⟨final.2, ?_, between.draining, between.drained noProgress⟩
  unfold ObjectGraph.serialize serializeContextDrain
  rw [show runWhile _ _ _ _ = some final from runs]
  show some (!final.2.error, final.2) = _
  rw [noError]
  rfl

section Drained

variable (separable : graph.Separable) (draining : Draining graph ctx)
  (drained : ∀ kind, kind ≠ .kString → ctx.Drained kind)

include draining drained in
theorem written_of_mem (inside : pointer ∈ ctx.objects kind) :
    Written graph.toObjectGraph ctx kind ((ctx.objects kind).idxOf pointer) pointer := by
  have reachable := (draining.objects kind).known pointer inside
  apply draining.written _ _ _ _ (List.getElem?_idxOf inside)
  rw [drained kind reachable.kind_ne]
  exact List.idxOf_lt_length_of_mem inside

include draining drained in
theorem mem_objects_iff : pointer ∈ ctx.objects kind ↔ graph.Reachable kind pointer := by
  constructor
  · exact (draining.objects kind).known pointer
  · intro reachable
    induction reachable with
    | root isRoot internable => exact draining.hasRoots _ isRoot internable
    | reference reachable refers internable inside =>
      exact (written_of_mem draining drained inside).1 _ refers internable

include draining drained in
theorem mem_strings_of_interned {str : List Byte} (interned : graph.InternedString str) :
    str ∈ ctx.strings := by
  rcases interned with isRoot | ⟨kind, object, fieldNumber, reachable, isField⟩
  · exact draining.hasRoots _ isRoot
  · have inside := (mem_objects_iff draining drained).mpr reachable
    exact (written_of_mem draining drained inside).1 _ isField str rfl

include separable draining drained

theorem distinctHandles_of_drained : graph.DistinctHandles ctx where
  objects := by
    intro kind pointer reachable other otherReachable same
    have inside := (mem_objects_iff draining drained).mpr reachable
    have otherInside := (mem_objects_iff draining drained).mpr otherReachable
    rw [draining.objectHandle_of_mem separable inside,
      draining.objectHandle_of_mem separable otherInside] at same
    exact tableHandle_injective (draining.length_lt separable kind) inside otherInside same
  object_ne_null := by
    intro kind pointer reachable
    have inside := (mem_objects_iff draining drained).mpr reachable
    rw [draining.objectHandle_of_mem separable inside]
    exact tableHandle_ne_null (draining.length_lt separable kind) inside
  strings := by
    intro str interned other otherInterned same
    have inside := mem_strings_of_interned draining drained interned
    have otherInside := mem_strings_of_interned draining drained otherInterned
    rw [draining.stringHandle_of_mem separable inside,
      draining.stringHandle_of_mem separable otherInside] at same
    exact tableHandle_injective (draining.length_strings_lt separable) inside otherInside same
  string_ne_null := by
    intro str interned
    have inside := mem_strings_of_interned draining drained interned
    rw [draining.stringHandle_of_mem separable inside]
    exact tableHandle_ne_null (draining.length_strings_lt separable) inside

theorem complete_of_drained : graph.Complete ctx where
  mem_iff _ _ := mem_objects_iff draining drained
  nodup kind := (draining.objects kind).nodup
  length kind isObject := by
    rw [draining.serialized kind]
    exact drained kind isObject
  record := by
    intro kind pointer reachable
    have inside := (mem_objects_iff draining drained).mpr reachable
    obtain ⟨_, buf, found, _, contents⟩ := written_of_mem draining drained inside
    rw [draining.objectHandle_of_mem separable inside,
      toNat_tableHandle (draining.length_lt separable kind) inside, Nat.add_sub_cancel, found]
    exact congrArg some contents

end Drained

end DaveCC.Serialize
