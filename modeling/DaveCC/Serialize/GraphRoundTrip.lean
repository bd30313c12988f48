import DaveCC.Serialize.Drain
import Mathlib.Order.Interval.Finset.Nat

/-!
# The graph round trip

A pool is a count and its records, so its reader allocates an object for each of them.
Reading a record then gives an object the fields it was written from, with each handle
turned into the object allocated for it. Hence serialising is faithful to a graph exactly
when `strcmp` tells its strings apart and no pool outgrows the handles.
-/

namespace DaveCC.Serialize

open ObjectGraph WireBuffer

variable {graph : FiniteGraph} {ctx : SerializeContext} {kind : SerialKind} {pointer : Pointer}

/-- A count and as many records. -/
def poolBytes (records : List (List Byte)) : List Byte :=
  varint (BitVec.ofNat 64 records.length) ++ records.flatMap lengthDelimited

theorem WireBuffer.IsWriter.length_contents {buf : WireBuffer} (writer : buf.IsWriter) :
    buf.wireBufferContents.length = buf.wireBufferSize := by
  rw [wireBufferContents, List.length_take, writer.length]
  exact Nat.min_eq_left writer.addr

theorem writes_return : Writes (pure true) [] :=
  fun buf writer => ⟨buf, rfl, writer, rfl, (List.append_nil _).symm⟩

theorem writes_writeBlobs {blobs : List WireBuffer} (writers : ∀ blob ∈ blobs, blob.IsWriter) :
    Writes (writeBlobs blobs)
      ((blobs.map wireBufferContents).flatMap lengthDelimited) := by
  induction blobs with
  | nil => exact writes_return
  | cons blob rest ih =>
    have writer := writers blob List.mem_cons_self
    have writesRest := ih fun other inside => writers other (List.mem_cons_of_mem _ inside)
    rw [List.map_cons, List.flatMap_cons, lengthDelimited, List.append_assoc,
      writer.length_contents]
    exact (writes_wireWriteRawVarint _).bind ((writes_wireWriteRaw _).bind writesRest)

theorem writes_writeStrings (strings : List (List Byte)) :
    Writes (writeStrings ((strings.map (· ++ [0])).zip (strings.map List.length)))
      (strings.flatMap lengthDelimited) := by
  induction strings with
  | nil => exact writes_return
  | cons str rest ih =>
    have content : (str ++ [0]).take str.length = str := List.take_left
    have writesRaw := writes_wireWriteRaw ((str ++ [0]).take str.length)
    conv at writesRaw => rhs; rw [content]
    rw [List.flatMap_cons, lengthDelimited, List.append_assoc]
    exact (writes_wireWriteRawVarint _).bind (writesRaw.bind ih)

/-- The records of a pool. -/
def ObjectGraph.records (graph : ObjectGraph) (ctx : SerializeContext) (kind : SerialKind) :
    List (List Byte) :=
  (ctx.objects kind).map (graph.record ctx kind)

/-- A context whose tables are drained. -/
structure Drained (graph : FiniteGraph) (ctx : SerializeContext) : Prop
    extends Draining graph ctx where
  drained : ∀ kind, kind ≠ .kString → ctx.Drained kind

theorem Drained.serialized_eq (drained : Drained graph ctx) (isObject : kind ≠ .kString) :
    (ctx.serialized kind).map wireBufferContents = graph.records ctx kind ∧
      ∀ blob ∈ ctx.serialized kind, blob.IsWriter := by
  have length : (ctx.serialized kind).length = (ctx.objects kind).length := by
    rw [drained.serialized kind]
    exact drained.drained kind isObject
  have place (index : ℕ) (inside : index < (ctx.objects kind).length) :
      ∃ buf, (ctx.serialized kind)[index]? = some buf ∧ buf.IsWriter ∧
        buf.wireBufferContents = graph.record ctx kind (ctx.objects kind)[index] := by
    apply (drained.written kind index _ _ (List.getElem?_eq_getElem inside)).2
    rw [drained.drained kind isObject]
    exact inside
  constructor
  · apply List.ext_getElem
    · rw [ObjectGraph.records, List.length_map, List.length_map, length]
    · intro index insideRecords insideObjects
      have inside : index < (ctx.objects kind).length := by
        rw [List.length_map, length] at insideRecords
        exact insideRecords
      obtain ⟨buf, found, _, contents⟩ := place index inside
      obtain ⟨_, same⟩ := List.getElem?_eq_some_iff.mp found
      rw [List.getElem_map, same, contents]
      exact (List.getElem_map _).symm
  · intro blob isBlob
    obtain ⟨index, inside, same⟩ := List.getElem_of_mem isBlob
    obtain ⟨buf, found, writer, _⟩ := place index (length ▸ inside)
    rw [List.getElem?_eq_getElem inside, same] at found
    cases found
    exact writer

theorem Drained.writes_pool (drained : Drained graph ctx) (isObject : kind ≠ .kString) :
    Writes (serializeWritePool ctx kind) (poolBytes (graph.records ctx kind)) := by
  have ⟨contents, writers⟩ := drained.serialized_eq isObject
  have length : (graph.records ctx kind).length = (ctx.serialized kind).length := by
    rw [← contents, List.length_map]
  rw [poolBytes, length, ← contents]
  exact (writes_wireWriteRawVarint _).bind (writes_writeBlobs writers)

theorem Drained.writes_stringPool (drained : Drained graph ctx) :
    Writes (serializeWriteStringPool ctx) (poolBytes ctx.strings) := by
  rw [serializeWriteStringPool, poolBytes, ← drained.toInterned.length_stringPool]
  have writesStrings := writes_writeStrings ctx.strings
  rw [← drained.pool, ← drained.lens] at writesStrings
  exact (writes_wireWriteRawVarint _).bind writesStrings

variable {kinds : List SerialKind}

theorem Drained.writes_pools (drained : Drained graph ctx)
    (areObjects : ∀ kind ∈ kinds, kind ≠ .kString) :
    Writes (writePools ctx kinds)
      (kinds.flatMap fun kind => poolBytes (graph.records ctx kind)) := by
  induction kinds with
  | nil => exact writes_return
  | cons kind rest ih =>
    exact (drained.writes_pool (areObjects kind List.mem_cons_self)).bind
      (ih fun other inside => areObjects other (List.mem_cons_of_mem _ inside))

theorem mem_objectKinds (kind : SerialKind) : kind ∈ objectKinds ↔ kind ≠ .kString := by
  cases kind <;> decide

/-- All the pools. -/
def ObjectGraph.archive (graph : ObjectGraph) (ctx : SerializeContext) : List Byte :=
  poolBytes ctx.strings ++ objectKinds.flatMap fun kind => poolBytes (graph.records ctx kind)

theorem Drained.writes_all (drained : Drained graph ctx) :
    Writes (ObjectGraph.writeAll ctx) (graph.archive ctx) :=
  drained.writes_stringPool.bind
    (drained.writes_pools fun kind inside => (mem_objectKinds kind).mp inside)

section Allocation

variable {read : DeserializeContext ObjectMemory}

/-- The strings of a pool, read into a context. -/
def loadStrings (read : DeserializeContext ObjectMemory) (strings : List (List Byte)) :
    DeserializeContext ObjectMemory :=
  { read with
    stringPool := read.stringPool ++ strings.map (· ++ [0])
    stringLens := read.stringLens ++ strings.map List.length }

variable {strings : List (List Byte)}

theorem consumes_readStringsLoop (fits : ∀ str ∈ strings, str.length < 2 ^ 64)
    (read : DeserializeContext ObjectMemory) :
    Consumes (readStringsLoop read strings.length) (strings.flatMap lengthDelimited)
      (true, loadStrings read strings) := by
  induction strings generalizing read with
  | nil =>
    rw [loadStrings, List.map_nil, List.map_nil, List.append_nil, List.append_nil]
    exact consumes_return
  | cons str rest ih =>
    have readsRest := ih (fun other inside => fits other (List.mem_cons_of_mem _ inside))
      { read with
        stringPool := read.stringPool ++ [str ++ [0]]
        stringLens := read.stringLens ++ [str.length] }
    have same : loadStrings
        { read with
          stringPool := read.stringPool ++ [str ++ [0]]
          stringLens := read.stringLens ++ [str.length] } rest =
        loadStrings read (str :: rest) := by
      simp [loadStrings]
    rw [same] at readsRest
    exact (consumes_wireReadBytes (fits str List.mem_cons_self)).bind readsRest

theorem consumes_stringPool (fits : ∀ str ∈ strings, str.length < 2 ^ 64)
    (few : strings.length < 2 ^ 64) (read : DeserializeContext ObjectMemory) :
    Consumes (serializeReadStringPool read) (poolBytes strings)
      (true, loadStrings read strings) := by
  have count : (BitVec.ofNat 64 strings.length).toNat = strings.length := Nat.mod_eq_of_lt few
  have readsLoop := consumes_readStringsLoop fits read
  rw [← count] at readsLoop
  exact (consumes_wireReadRawVarint _).bind readsLoop

/-- An object for a record. -/
def allocRecord (kind : SerialKind) (read : DeserializeContext ObjectMemory)
    (blob : List Byte) : DeserializeContext ObjectMemory :=
  { read with
    memory := read.memory ++ [[]]
    objects := Function.update read.objects kind (read.objects kind ++ [read.memory.length + 1])
    blobs := Function.update read.blobs kind (read.blobs kind ++ [blob]) }

theorem consumes_readPoolLoop (graph : FiniteGraph) (kind : SerialKind) {records : List (List Byte)}
    (fits : ∀ blob ∈ records, blob.length < 2 ^ 64) (read : DeserializeContext ObjectMemory) :
    Consumes (readPoolLoop graph.registry kind read records.length)
      (records.flatMap lengthDelimited) (true, records.foldl (allocRecord kind) read) := by
  induction records generalizing read with
  | nil => exact consumes_return
  | cons blob rest ih =>
    exact (consumes_wireReadBytes (fits blob List.mem_cons_self)).bind
      (ih (fun other inside => fits other (List.mem_cons_of_mem _ inside))
        (allocRecord kind read blob))

theorem consumes_pool {records : List (List Byte)} (fits : ∀ blob ∈ records, blob.length < 2 ^ 64)
    (few : records.length < 2 ^ 64) (read : DeserializeContext ObjectMemory) :
    Consumes (serializeReadPool graph.registry read kind) (poolBytes records)
      (true, records.foldl (allocRecord kind) read) := by
  have count : (BitVec.ofNat 64 records.length).toNat = records.length := Nat.mod_eq_of_lt few
  have readsLoop := consumes_readPoolLoop graph kind fits read
  rw [← count] at readsLoop
  exact (consumes_wireReadRawVarint _).bind readsLoop

/-- The objects of all kinds are at distinct places, and have no fields yet. -/
structure Allocated (read : DeserializeContext ObjectMemory) : Prop where
  inside : ∀ kind, ∀ object ∈ read.objects kind, 0 < object ∧ object ≤ read.memory.length
  distinct : ∀ (kind : SerialKind) (index : ℕ) (otherKind : SerialKind) (otherIndex : ℕ)
    (object : Pointer), (read.objects kind)[index]? = some object →
    (read.objects otherKind)[otherIndex]? = some object → kind = otherKind ∧ index = otherIndex
  blank : ∀ cell ∈ read.memory, cell = []

theorem getElem?_allocRecord {blob : List Byte} {other : SerialKind} {index : ℕ}
    {object : Pointer} (found : ((allocRecord kind read blob).objects other)[index]? = some object) :
    (read.objects other)[index]? = some object ∨
      other = kind ∧ index = (read.objects kind).length ∧ object = read.memory.length + 1 := by
  by_cases same : other = kind
  · subst same
    simp only [allocRecord, Function.update_self] at found
    rcases Nat.lt_trichotomy index (read.objects other).length with before | rfl | after
    · rw [List.getElem?_append_left before] at found
      exact .inl found
    · rw [List.getElem?_concat_length] at found
      cases found
      exact .inr ⟨rfl, rfl, rfl⟩
    · rw [List.getElem?_eq_none] at found
      · cases found
      · rw [List.length_append, List.length_singleton]
        exact after
  · simp only [allocRecord, Function.update_of_ne same] at found
    exact .inl found

theorem Allocated.allocRecord (allocated : Allocated read) (kind : SerialKind)
    (blob : List Byte) : Allocated (allocRecord kind read blob) where
  inside := by
    intro other object isObject
    have length : (Serialize.allocRecord kind read blob).memory.length = read.memory.length + 1 :=
      List.length_append
    obtain ⟨index, found⟩ := List.getElem?_of_mem isObject
    rw [length]
    rcases getElem?_allocRecord found with old | ⟨_, _, rfl⟩
    · have ⟨positive, inside⟩ := allocated.inside other object (List.mem_of_getElem? old)
      exact ⟨positive, Nat.le_succ_of_le inside⟩
    · exact ⟨Nat.succ_pos _, Nat.le_refl _⟩
  distinct := by
    intro first firstIndex second secondIndex object found otherFound
    rcases getElem?_allocRecord found with old | ⟨rfl, rfl, rfl⟩
    · rcases getElem?_allocRecord otherFound with otherOld | ⟨_, _, rfl⟩
      · exact allocated.distinct _ _ _ _ _ old otherOld
      · have ⟨_, inside⟩ := allocated.inside first _ (List.mem_of_getElem? old)
        exact absurd inside (Nat.not_succ_le_self _)
    · rcases getElem?_allocRecord otherFound with otherOld | ⟨rfl, rfl, _⟩
      · have ⟨_, inside⟩ := allocated.inside second _ (List.mem_of_getElem? otherOld)
        exact absurd inside (Nat.not_succ_le_self _)
      · exact ⟨rfl, rfl⟩
  blank := by
    intro cell inside
    rcases List.mem_append.mp inside with inside | isNew
    · exact allocated.blank cell inside
    · exact List.mem_singleton.mp isNew

/-- A context with objects for some records of a kind. -/
structure AllocatesPool (kind : SerialKind) (records : List (List Byte))
    (read next : DeserializeContext ObjectMemory) : Prop where
  blobs : next.blobs kind = read.blobs kind ++ records
  objects : (next.objects kind).length = (read.objects kind).length + records.length
  others : ∀ other, other ≠ kind → next.blobs other = read.blobs other ∧
    next.objects other = read.objects other
  stringPool : next.stringPool = read.stringPool
  stringLens : next.stringLens = read.stringLens
  error : next.error = read.error

theorem allocatesPool (kind : SerialKind) (records : List (List Byte))
    (read : DeserializeContext ObjectMemory) :
    AllocatesPool kind records read (records.foldl (allocRecord kind) read) := by
  induction records generalizing read with
  | nil => exact ⟨(List.append_nil _).symm, rfl, fun _ _ => ⟨rfl, rfl⟩, rfl, rfl, rfl⟩
  | cons blob rest ih =>
    have ⟨blobs, objects, others, stringPool, stringLens, error⟩ := ih (allocRecord kind read blob)
    refine ⟨?_, ?_, ?_, stringPool, stringLens, error⟩
    · rw [List.foldl_cons, blobs]
      simp [allocRecord]
    · rw [List.foldl_cons, objects]
      simp only [allocRecord, Function.update_self, List.length_append, List.length_cons,
        List.length_nil]
      omega
    · intro other ne
      rw [List.foldl_cons, (others other ne).1, (others other ne).2]
      exact ⟨Function.update_of_ne ne .., Function.update_of_ne ne ..⟩

theorem Allocated.pool (allocated : Allocated read) (kind : SerialKind)
    (records : List (List Byte)) : Allocated (records.foldl (Serialize.allocRecord kind) read) := by
  induction records generalizing read with
  | nil => exact allocated
  | cons blob rest ih => exact ih (allocated.allocRecord kind blob)

end Allocation

/-! ## Loading -/

/-- What the first pass makes of the pools of a context. -/
structure Loaded (graph : ObjectGraph) (ctx : SerializeContext)
    (read : DeserializeContext ObjectMemory) : Prop where
  blobs : ∀ kind, kind ≠ .kString → read.blobs kind = graph.records ctx kind
  objects : ∀ kind, kind ≠ .kString → (read.objects kind).length = (ctx.objects kind).length
  noStrings : read.objects .kString = []
  stringPool : read.stringPool = ctx.strings.map (· ++ [0])
  stringLens : read.stringLens = ctx.strings.map List.length
  noError : read.error = false

/-- The first pass over the pools of some kinds. -/
def loadPools (graph : ObjectGraph) (ctx : SerializeContext)
    (read : DeserializeContext ObjectMemory) (kinds : List SerialKind) :
    DeserializeContext ObjectMemory :=
  kinds.foldl (fun read kind => (graph.records ctx kind).foldl (allocRecord kind) read) read

/-- The whole first pass. -/
def load (graph : ObjectGraph) (ctx : SerializeContext) : DeserializeContext ObjectMemory :=
  loadPools graph ctx (loadStrings { memory := [] } ctx.strings) objectKinds

theorem allocated_load (graph : ObjectGraph) (ctx : SerializeContext) :
    Allocated (load graph ctx) := by
  apply Loop.foldl_induct (fun _ read => Allocated read)
  · intro _ kind _ read _ allocated
    exact allocated.pool kind _
  · exact
      { inside := fun _ _ impossible => absurd impossible List.not_mem_nil
        distinct := fun _ _ _ _ _ impossible => nomatch impossible
        blank := fun _ impossible => absurd impossible List.not_mem_nil }

/-- What the first pass has done when some kinds are left. -/
structure LoadedPools (graph : ObjectGraph) (ctx : SerializeContext) (kinds : List SerialKind)
    (read : DeserializeContext ObjectMemory) : Prop where
  done : ∀ kind ∈ kinds, read.blobs kind = graph.records ctx kind ∧
    (read.objects kind).length = (graph.records ctx kind).length
  rest : ∀ kind, kind ∉ kinds → read.blobs kind = [] ∧ read.objects kind = []
  stringPool : read.stringPool = ctx.strings.map (· ++ [0])
  stringLens : read.stringLens = ctx.strings.map List.length
  noError : read.error = false

theorem LoadedPools.pool {graph : ObjectGraph} {read : DeserializeContext ObjectMemory}
    (loaded : LoadedPools graph ctx kinds read) (fresh : kind ∉ kinds) :
    LoadedPools graph ctx (kinds ++ [kind])
      ((graph.records ctx kind).foldl (allocRecord kind) read) := by
  have allocates := allocatesPool kind (graph.records ctx kind) read
  have ⟨noBlobs, noObjects⟩ := loaded.rest kind fresh
  refine ⟨?_, ?_, allocates.stringPool.trans loaded.stringPool,
    allocates.stringLens.trans loaded.stringLens, allocates.error.trans loaded.noError⟩
  · intro other inside
    by_cases same : other = kind
    · subst same
      rw [allocates.blobs, allocates.objects, noBlobs, noObjects, List.nil_append]
      exact ⟨rfl, Nat.zero_add _⟩
    · rw [(allocates.others other same).1, (allocates.others other same).2]
      rcases List.mem_append.mp inside with inside | isKind
      · exact loaded.done other inside
      · exact absurd (List.mem_singleton.mp isKind) same
  · intro other outside
    rw [List.mem_append, List.mem_singleton, not_or] at outside
    rw [(allocates.others other outside.2).1, (allocates.others other outside.2).2]
    exact loaded.rest other outside.1

theorem loaded_load (graph : ObjectGraph) (ctx : SerializeContext) :
    Loaded graph ctx (load graph ctx) := by
  have distinct : objectKinds.Nodup := by decide
  have loaded : LoadedPools graph ctx objectKinds (load graph ctx) := by
    unfold load loadPools
    apply Loop.foldl_induct (LoadedPools graph ctx)
    · intro front kind back read split loaded
      apply loaded.pool
      intro inside
      rw [split] at distinct
      exact (List.nodup_append.mp distinct).2.2 kind inside kind List.mem_cons_self rfl
    · refine ⟨fun _ impossible => absurd impossible List.not_mem_nil, ?_, rfl, rfl, rfl⟩
      exact fun _ _ => ⟨rfl, rfl⟩
  exact
    { blobs := fun kind isObject => (loaded.done kind ((mem_objectKinds kind).mpr isObject)).1
      objects := fun kind isObject => by
        rw [(loaded.done kind ((mem_objectKinds kind).mpr isObject)).2]
        exact List.length_map ..
      noStrings := (loaded.rest .kString (by decide)).2
      stringPool := loaded.stringPool
      stringLens := loaded.stringLens
      noError := loaded.noError }

theorem Drained.consumes_pools (separable : graph.Separable) (drained : Drained graph ctx)
    (kinds : List SerialKind) (read : DeserializeContext ObjectMemory) :
    Consumes (graph.readPools read kinds)
      (kinds.flatMap fun kind => poolBytes (graph.records ctx kind))
      (true, loadPools graph.toObjectGraph ctx read kinds) := by
  induction kinds generalizing read with
  | nil => exact consumes_return
  | cons kind rest ih =>
    have fits : ∀ blob ∈ graph.records ctx kind, blob.length < 2 ^ 64 := by
      intro blob isRecord
      obtain ⟨pointer, _, rfl⟩ := List.mem_map.mp isRecord
      exact graph.recordFits kind pointer _ _
    have few : (graph.records ctx kind).length < 2 ^ 64 := by
      rw [ObjectGraph.records, List.length_map]
      exact Nat.lt_trans (drained.length_lt separable kind) (by decide)
    exact (consumes_pool fits few read).bind (ih _)

/-- Reading the archive is the first pass and then the second. -/
theorem Drained.consumes_all (separable : graph.Separable) (drained : Drained graph ctx) :
    Consumes graph.readAll (graph.archive ctx)
      (deserializeContextResolve graph.registry (load graph.toObjectGraph ctx)) := by
  have fits : ∀ str ∈ ctx.strings, str.length < 2 ^ 64 := by
    intro str inside
    rcases drained.strings.known str inside with isRoot | ⟨kind, object, fieldNumber, _, isField⟩
    · exact graph.rootFits str isRoot
    · exact graph.fits kind object _ isField str rfl
  have few : ctx.strings.length < 2 ^ 64 :=
    Nat.lt_trans (drained.length_strings_lt separable) (by decide)
  exact (consumes_stringPool fits few _).bind
    ((drained.consumes_pools separable objectKinds _).map rfl)

section Records

variable {read : DeserializeContext ObjectMemory} {object : Pointer}

/-- A handle of a reference leads to the object allocated for its target, or nowhere when
the target was not interned. -/
theorem Drained.resolve (separable : graph.Separable) (drained : Drained graph ctx)
    (loaded : Loaded graph.toObjectGraph ctx read) (isObject : kind ≠ .kString)
    (has : graph.Internable kind pointer → pointer ∈ ctx.objects kind) :
    deserializeResolve read kind (graph.objectHandle ctx kind pointer) =
      (graph.imageIn ctx read kind pointer, read) := by
  rw [ObjectGraph.imageIn]
  by_cases internable : graph.Internable kind pointer
  · have inside := has internable
    have small := drained.length_lt separable kind
    have notNull : (tableHandle (ctx.objects kind) pointer == kSerialNullHandle) = false :=
      beq_false_of_ne (tableHandle_ne_null small inside)
    have place : (ctx.objects kind).idxOf pointer < (read.objects kind).length := by
      rw [loaded.objects kind isObject]
      exact List.idxOf_lt_length_of_mem inside
    rw [drained.objectHandle_of_mem separable inside]
    simp only [deserializeResolve, notNull, toNat_tableHandle small inside,
      Nat.add_sub_cancel, List.getElem?_eq_getElem place]
    rfl
  · rw [drained.objectHandle_of_not_internable internable]
    rfl

theorem Drained.resolveString (separable : graph.Separable) (drained : Drained graph ctx)
    (loaded : Loaded graph.toObjectGraph ctx read) {str : List Byte} (inside : str ∈ ctx.strings) :
    deserializeResolveString read (ctx.stringHandle str) =
      ((some (str ++ [0]), str.length), read) := by
  have small := drained.length_strings_lt separable
  have notNull : (tableHandle ctx.strings str == kSerialNullHandle) = false :=
    beq_false_of_ne (tableHandle_ne_null small inside)
  have found := getElem?_tableHandle small inside
  rw [drained.stringHandle_of_mem separable inside]
  simp only [deserializeResolveString, notNull, loaded.stringPool, loaded.stringLens,
    List.getElem?_map, found, List.getD_eq_getElem?_getD]
  rfl

/-- The object has got some fields. -/
def storeAll (read : DeserializeContext ObjectMemory) (object : Pointer)
    (fields : List ObjectField) : DeserializeContext ObjectMemory :=
  { read with memory := read.memory.modify (object - 1) (· ++ fields) }

theorem storeAll_store (field : ObjectField) (rest : List ObjectField) :
    storeAll (ObjectGraph.store read object field) object rest =
      storeAll read object (field :: rest) := by
  unfold storeAll ObjectGraph.store
  simp only [List.modify_modify_eq]
  congr 2
  funext fields
  rw [Function.comp_apply, List.append_assoc, List.singleton_append]

theorem Loaded.storeAll {graph : ObjectGraph} (loaded : Loaded graph ctx read) (object : Pointer)
    (fields : List ObjectField) : Loaded graph ctx (storeAll read object fields) :=
  ⟨loaded.blobs, loaded.objects, loaded.noStrings, loaded.stringPool, loaded.stringLens,
    loaded.noError⟩

/-- Where an object is does not depend on the memory. -/
theorem imageIn_congr {graph : ObjectGraph} {other : DeserializeContext ObjectMemory}
    (same : other.objects = read.objects) : graph.imageIn ctx other = graph.imageIn ctx read := by
  funext kind pointer
  simp only [ObjectGraph.imageIn, deserializeResolve, same]
  split_ifs
  · rfl
  · cases (read.objects kind)[(graph.objectHandle ctx kind pointer).toNat - 1]? <;> rfl

theorem setWidth_handle (handle : SerialHandle) : (handle.setWidth 64).setWidth 32 = handle := by
  apply BitVec.eq_of_toNat_eq
  rw [BitVec.toNat_setWidth, BitVec.toNat_setWidth]
  omega

/-- Reading a field of an object of the graph stores its copy. -/
theorem Drained.consumes_field (object : Pointer) (separable : graph.Separable) (drained : Drained graph ctx)
    (loaded : Loaded graph.toObjectGraph ctx read) {field : ObjectField}
    (isField : field ∈ graph.fields kind pointer)
    (has : ctx.Has graph.toObjectGraph field) :
    ∃ wireType payload, field.encode (graph.objectHandle ctx) ctx.stringHandle =
        tagBytes field.fieldNumber wireType ++ payload ∧
      Consumes wireReadTag (tagBytes field.fieldNumber wireType)
        (some (field.fieldNumber, wireType)) ∧
      Consumes (graph.readField kind object read field.fieldNumber wireType) payload
        (ObjectGraph.store read object (field.rename (graph.imageIn ctx read))) := by
  have typed := graph.typed kind pointer field isField
  have valid := graph.valid kind pointer field isField
  cases field with
  | scalar fieldNumber value =>
    refine ⟨_, value.payload, rfl, consumes_kind_tag valid value.kind, ?_⟩
    unfold readField
    simp only [typed, ObjectField.type]
    exact (consumes_read (graph.fits kind pointer _ isField)).map rfl
  | reference fieldNumber kind target =>
    refine ⟨_, varint ((graph.objectHandle ctx kind target).setWidth 64), rfl,
      consumes_kind_tag valid .varint, ?_⟩
    have resolves := drained.resolve separable loaded kind.2 has
    unfold readField
    simp only [typed, ObjectField.type]
    apply (consumes_wireReadRawVarint _).map
    simp only [setWidth_handle, resolves]
    rfl
  | string fieldNumber str =>
    refine ⟨_, varint ((str.elim kSerialNullHandle ctx.stringHandle).setWidth 64), rfl,
      consumes_kind_tag valid .varint, ?_⟩
    unfold readField
    simp only [typed, ObjectField.type]
    apply (consumes_wireReadRawVarint _).map
    simp only [setWidth_handle]
    cases str with
    | none => rfl
    | some bytes =>
      have resolves := drained.resolveString separable loaded (has bytes rfl)
      have content : (bytes ++ [0]).take bytes.length = bytes := List.take_left
      simp only [Option.elim_some, resolves, Option.map_some, content]
      rfl

theorem storeAll_nil (read : DeserializeContext ObjectMemory) (object : Pointer) :
    storeAll read object [] = read := by
  have same : (fun fields : List ObjectField => fields ++ []) = id := by
    funext fields
    exact List.append_nil fields
  rw [storeAll, same, List.modify_id]

theorem varint_ne_nil (value : BitVec 64) : varint value ≠ [] := by
  rw [varint]
  split_ifs <;> exact List.cons_ne_nil _ _

/-- Reading a record stores the copies of its fields. -/
theorem Drained.readFields (object : Pointer) (separable : graph.Separable) (drained : Drained graph ctx)
    {fields : List ObjectField} (areFields : ∀ field ∈ fields, field ∈ graph.fields kind pointer)
    (has : ∀ field ∈ fields, ctx.Has graph.toObjectGraph field)
    (loaded : Loaded graph.toObjectGraph ctx read) {fuel : ℕ} (enough : fields.length ≤ fuel)
    {buf : WireBuffer}
    (unread : buf.Unread
      (fields.flatMap (ObjectField.encode (graph.objectHandle ctx) ctx.stringHandle))) :
    ∃ after, graph.readFields kind object fuel read buf =
        (storeAll read object (fields.map (ObjectField.rename (graph.imageIn ctx read))), after) ∧
      after.error = false := by
  have reads : (get : StateM WireBuffer WireBuffer) buf = (buf, buf) := rfl
  induction fields generalizing read fuel buf with
  | nil =>
    rw [List.map_nil, storeAll_nil]
    cases fuel with
    | zero => exact ⟨buf, rfl, unread.noError⟩
    | succ fuel =>
      refine ⟨buf, ?_, unread.noError⟩
      have atEnd : buf.wireBufferEof = true :=
        decide_eq_true (Nat.le_of_eq unread.length_eq.symm)
      unfold readFields
      rw [run_bind reads, run_bind reads, atEnd, Bool.true_or, if_pos rfl]
      rfl
  | cons field rest ih =>
    obtain ⟨fuel, rfl⟩ : ∃ less, fuel = less + 1 :=
      Nat.exists_eq_add_one_of_ne_zero (Nat.ne_of_gt (Nat.lt_of_lt_of_le (Nat.succ_pos _) enough))
    obtain ⟨wireType, payload, encoded, readsTag, readsField⟩ :=
      drained.consumes_field object separable loaded
        (areFields field List.mem_cons_self) (has field List.mem_cons_self)
    rw [List.flatMap_cons, encoded, List.append_assoc] at unread
    have afterTag := unread.advance
    have afterField := afterTag.advance
    obtain ⟨after, readsRest, noError⟩ := ih
      (fun other inside => areFields other (List.mem_cons_of_mem _ inside))
      (fun other inside => has other (List.mem_cons_of_mem _ inside))
      (loaded.storeAll object [field.rename (graph.imageIn ctx read)])
      (Nat.le_of_succ_le_succ enough) afterField rfl
    refine ⟨after, ?_, noError⟩
    have more : buf.wireBufferEof = false := by
      have length := unread.fits
      have positive := List.length_pos_of_ne_nil
        (varint_ne_nil (wireMakeTag field.fieldNumber wireType))
      apply decide_eq_false
      rw [tagBytes] at length
      omega
    unfold readFields
    rw [run_bind reads, run_bind reads, more, unread.noError, Bool.or_self,
      if_neg Bool.false_ne_true, run_bind (readsTag buf _ unread)]
    dsimp only
    rw [run_bind (readsField _ _ afterTag)]
    have sameImage : graph.imageIn ctx
        (storeAll read object [field.rename (graph.imageIn ctx read)]) =
        graph.imageIn ctx read := imageIn_congr rfl
    rw [sameImage] at readsRest
    rw [List.map_cons, ← storeAll_store]
    exact readsRest

theorem length_le_record (fields : List ObjectField)
    (objectHandle : SerialKind → Pointer → SerialHandle) (stringHandle : List Byte → SerialHandle) :
    fields.length ≤ (fields.flatMap (ObjectField.encode objectHandle stringHandle)).length := by
  induction fields with
  | nil => exact Nat.le_refl _
  | cons field rest ih =>
    have positive : 0 < (field.encode objectHandle stringHandle).length := by
      cases field <;>
        exact List.length_pos_of_ne_nil (List.append_ne_nil_of_left_ne_nil (varint_ne_nil _) _)
    rw [List.length_cons, List.flatMap_cons, List.length_append]
    omega

/-- The `read` callback gives an object the copies of the fields in its record. -/
theorem Drained.readObject (object : Pointer) (separable : graph.Separable) (drained : Drained graph ctx)
    (has : ∀ field ∈ graph.fields kind pointer, ctx.Has graph.toObjectGraph field)
    (loaded : Loaded graph.toObjectGraph ctx read) :
    ∃ after, graph.read kind object read (wireBufferInitReader (graph.record ctx kind pointer)) =
      ((true, storeAll read object ((graph.fields kind pointer).map
        (ObjectField.rename (graph.imageIn ctx read)))), after) := by
  obtain ⟨after, runs, noError⟩ := drained.readFields object separable
    (fun _ inside => inside) has loaded (length_le_record _ _ _)
    (unread_initReader (graph.record ctx kind pointer))
  refine ⟨after, ?_⟩
  have reads (buf : WireBuffer) : (get : StateM WireBuffer WireBuffer) buf = (buf, buf) := rfl
  unfold ObjectGraph.read
  rw [run_bind (reads _), run_bind (show graph.readFields kind object (wireBufferInitReader
    (graph.record ctx kind pointer)).limit read _ = _ from runs), run_bind (reads _), noError]
  rfl

end Records

/-! ## Resolving -/

/-- The second pass, when some objects have their fields and the others none. -/
structure Resolved (graph : ObjectGraph) (ctx : SerializeContext)
    (start : DeserializeContext ObjectMemory) (isDone : SerialKind → ℕ → Prop)
    (read : DeserializeContext ObjectMemory) : Prop extends Loaded graph ctx read where
  sameObjects : read.objects = start.objects
  filled : ∀ (kind : SerialKind) (index : ℕ) (pointer object : Pointer), isDone kind index →
    (ctx.objects kind)[index]? = some pointer → (start.objects kind)[index]? = some object →
    read.memory[object - 1]? =
      some ((graph.fields kind pointer).map (ObjectField.rename (graph.imageIn ctx start)))
  blank : ∀ (kind : SerialKind) (index : ℕ) (object : Pointer), ¬ isDone kind index →
    (start.objects kind)[index]? = some object → read.memory[object - 1]? = some []

section Resolving

variable {start read : DeserializeContext ObjectMemory} {isDone : SerialKind → ℕ → Prop}

theorem Resolved.congr {graph : ObjectGraph} {other : SerialKind → ℕ → Prop}
    (resolved : Resolved graph ctx start isDone read)
    (same : ∀ kind index, index < (start.objects kind).length → (isDone kind index ↔
      other kind index)) :
    Resolved graph ctx start other read where
  toLoaded := resolved.toLoaded
  sameObjects := resolved.sameObjects
  filled kind index pointer object done found place :=
    resolved.filled kind index pointer object
      ((same kind index (List.getElem?_eq_some_iff.mp place).1).mpr done) found place
  blank kind index object notDone place :=
    resolved.blank kind index object
      (fun done => notDone ((same kind index (List.getElem?_eq_some_iff.mp place).1).mp done)) place

theorem getElem?_storeAll_self {object : Pointer} {cell fields : List ObjectField}
    (found : read.memory[object - 1]? = some cell) :
    (storeAll read object fields).memory[object - 1]? = some (cell ++ fields) := by
  rw [storeAll, List.getElem?_modify, found]
  exact congrArg some (if_pos rfl)

theorem getElem?_storeAll_of_ne {object other : Pointer} (positive : 0 < object)
    (otherPositive : 0 < other) (ne : object ≠ other) (fields : List ObjectField) :
    (storeAll read object fields).memory[other - 1]? = read.memory[other - 1]? := by
  have away : object - 1 ≠ other - 1 :=
    fun same => ne (Nat.pred_inj positive otherPositive same)
  rw [storeAll, List.getElem?_modify]
  simp only [if_neg away, id_map']

theorem setError_eq (noError : read.error = false) :
    { read with error := read.error || !true } = read := by
  cases read
  cases noError
  rfl

/-- One step fills one object. -/
theorem Drained.resolveObject (separable : graph.Separable) (drained : Drained graph ctx)
    (allocated : Allocated start) (isObject : kind ≠ .kString) {index : ℕ}
    (inside : index < (start.objects kind).length) (notDone : ¬ isDone kind index)
    (resolved : Resolved graph.toObjectGraph ctx start isDone read) :
    Resolved graph.toObjectGraph ctx start
      (fun other place => isDone other place ∨ other = kind ∧ place = index)
      (resolveObject graph.registry kind read index) := by
  have place : index < (ctx.objects kind).length := by
    rw [← resolved.objects kind isObject, resolved.sameObjects]
    exact inside
  have found : (ctx.objects kind)[index]? = some (ctx.objects kind)[index] :=
    List.getElem?_eq_getElem place
  have isObjectAt : (start.objects kind)[index]? = some (start.objects kind)[index] :=
    List.getElem?_eq_getElem inside
  have has := (drained.written kind index _
    (by rw [drained.drained kind isObject]; exact place) found).1
  obtain ⟨after, runs⟩ := drained.readObject (start.objects kind)[index] separable has
    resolved.toLoaded
  have sameImage : graph.imageIn ctx read = graph.imageIn ctx start :=
    imageIn_congr resolved.sameObjects
  rw [sameImage] at runs
  have steps : Serialize.resolveObject graph.registry kind read index =
      storeAll read (start.objects kind)[index]
        ((graph.fields kind (ctx.objects kind)[index]).map
          (ObjectField.rename (graph.imageIn ctx start))) := by
    have blob : (read.blobs kind).getD index [] = graph.record ctx kind (ctx.objects kind)[index] := by
      rw [resolved.blobs kind isObject, List.getD_eq_getElem?_getD, ObjectGraph.records,
        List.getElem?_map, found]
      rfl
    have object : (read.objects kind).getD index 0 = (start.objects kind)[index] := by
      rw [resolved.sameObjects, List.getD_eq_getElem?_getD, isObjectAt]
      rfl
    simp only [Serialize.resolveObject, resolved.noError, Bool.false_eq_true, if_false,
      ObjectGraph.registry, Option.bind_some, blob, object, runs]
    exact setError_eq (resolved.toLoaded.storeAll _ _).noError
  have stays (other : SerialKind) (otherIndex : ℕ) (object : Pointer)
      (placed : (start.objects other)[otherIndex]? = some object)
      (ne : ¬ (other = kind ∧ otherIndex = index)) :
      (storeAll read (start.objects kind)[index]
        ((graph.fields kind (ctx.objects kind)[index]).map
          (ObjectField.rename (graph.imageIn ctx start)))).memory[object - 1]? =
        read.memory[object - 1]? := by
    apply getElem?_storeAll_of_ne
    · exact (allocated.inside kind _ (List.getElem_mem inside)).1
    · exact (allocated.inside other object (List.mem_of_getElem? placed)).1
    · intro same
      rw [← same] at placed
      exact ne (allocated.distinct _ _ _ _ _ placed isObjectAt)
  rw [steps]
  exact
    { toLoaded := resolved.toLoaded.storeAll _ _
      sameObjects := resolved.sameObjects
      filled := by
        intro other otherIndex pointer object done foundOther placed
        rcases done with done | ⟨rfl, rfl⟩
        · rw [stays other otherIndex object placed (fun same => notDone (same.1 ▸ same.2 ▸ done))]
          exact resolved.filled other otherIndex pointer object done foundOther placed
        · rw [isObjectAt] at placed
          rw [found] at foundOther
          cases placed
          cases foundOther
          rw [getElem?_storeAll_self (resolved.blank other otherIndex _ notDone isObjectAt)]
          rfl
      blank := by
        intro other otherIndex object notDone placed
        rw [not_or] at notDone
        rw [stays other otherIndex object placed notDone.2]
        exact resolved.blank other otherIndex object notDone.1 placed }

/-- The inner loop fills the objects of a kind. -/
theorem Drained.resolvePool (separable : graph.Separable) (drained : Drained graph ctx)
    (allocated : Allocated start) (isObject : kind ≠ .kString)
    (notDone : ∀ index, ¬ isDone kind index)
    (resolved : Resolved graph.toObjectGraph ctx start isDone read) :
    Resolved graph.toObjectGraph ctx start (fun other index => isDone other index ∨ other = kind)
      (resolvePool graph.registry read kind) := by
  rw [Serialize.resolvePool, if_neg isObject, resolved.sameObjects]
  have filled : Resolved graph.toObjectGraph ctx start
      (fun other index => isDone other index ∨
        other = kind ∧ index ∈ List.range (start.objects kind).length)
      ((List.range (start.objects kind).length).foldl
        (Serialize.resolveObject graph.registry kind) read) := by
    apply Loop.foldl_induct (fun front read => Resolved graph.toObjectGraph ctx start
      (fun other index => isDone other index ∨ other = kind ∧ index ∈ front) read)
    · intro front index back read split resolved
      have inside : index < (start.objects kind).length := by
        rw [← List.mem_range, split]
        exact List.mem_append_right _ List.mem_cons_self
      have fresh : index ∉ front := by
        have distinct : (List.range (start.objects kind).length).Nodup := List.nodup_range
        rw [split] at distinct
        exact fun member =>
          (List.nodup_append.mp distinct).2.2 index member index List.mem_cons_self rfl
      have next := drained.resolveObject separable allocated isObject inside
        (not_or.mpr ⟨notDone index, fun done => fresh done.2⟩) resolved
      apply next.congr
      intro other place _
      rw [List.mem_append, List.mem_singleton]
      tauto
    · apply resolved.congr
      intro other place _
      simp
  apply filled.congr
  intro other index before
  rw [List.mem_range]
  constructor
  · rintro (done | ⟨isKind, _⟩)
    · exact .inl done
    · exact .inr isKind
  · rintro (done | rfl)
    · exact .inl done
    · exact .inr ⟨rfl, before⟩

theorem resolved_start (allocated : Allocated start)
    (loaded : Loaded graph.toObjectGraph ctx start) :
    Resolved graph.toObjectGraph ctx start (fun kind _ => kind ∈ []) start where
  toLoaded := loaded
  sameObjects := rfl
  filled _ _ _ _ impossible := absurd impossible List.not_mem_nil
  blank := by
    intro kind index object _ placed
    have ⟨positive, inside⟩ := allocated.inside kind object (List.mem_of_getElem? placed)
    have cell : object - 1 < start.memory.length :=
      Nat.lt_of_lt_of_le (Nat.sub_lt positive Nat.one_pos) inside
    rw [List.getElem?_eq_getElem cell]
    exact congrArg some (allocated.blank _ (List.getElem_mem cell))

section

variable (separable : graph.Separable) (drained : Drained graph ctx)

include separable drained

theorem Drained.resolvePools (allocated : Allocated start)
    (loaded : Loaded graph.toObjectGraph ctx start) {kinds : List SerialKind}
    (distinct : kinds.Nodup) :
    Resolved graph.toObjectGraph ctx start (fun kind _ => kind ∈ kinds)
      (kinds.foldl (Serialize.resolvePool graph.registry) start) := by
  apply Loop.foldl_induct (fun front read => Resolved graph.toObjectGraph ctx start
    (fun kind _ => kind ∈ front) read) _ (resolved_start allocated loaded)
  intro front kind back read split resolved
  by_cases isString : kind = .kString
  · subst isString
    apply resolved.congr
    intro other index before
    have ne : other ≠ .kString := by
      rintro rfl
      rw [loaded.noStrings] at before
      exact absurd before (Nat.not_lt_zero _)
    rw [List.mem_append, List.mem_singleton, or_iff_left ne]
  · have fresh : kind ∉ front := by
      rw [split] at distinct
      exact fun member =>
        (List.nodup_append.mp distinct).2.2 kind member kind List.mem_cons_self rfl
    have next := drained.resolvePool separable allocated isString (fun _ => fresh) resolved
    apply next.congr
    intro other index _
    rw [List.mem_append, List.mem_singleton]

/-- The second pass fills every object. -/
theorem Drained.resolveAll (allocated : Allocated start)
    (loaded : Loaded graph.toObjectGraph ctx start) :
    ∃ read, deserializeContextResolve graph.registry start = (true, read) ∧
      Resolved graph.toObjectGraph ctx start (fun _ _ => True) read := by
  have distinct : SerialKind.all.Nodup := by decide
  have resolved := drained.resolvePools separable allocated loaded distinct
  have noError := resolved.noError
  unfold deserializeContextResolve
  generalize SerialKind.all.foldl (Serialize.resolvePool graph.registry) start = read
    at resolved noError
  refine ⟨read, ?_, resolved.congr fun kind _ _ => iff_true_intro kind.mem_all⟩
  simp [noError]

/-- The image of an object is at the object's place. -/
theorem Drained.getElem?_imageIn (loaded : Loaded graph.toObjectGraph ctx read)
    (inside : pointer ∈ ctx.objects kind) :
    (read.objects kind)[(ctx.objects kind).idxOf pointer]? =
      some (graph.imageIn ctx read kind pointer) := by
  have isObject := ((drained.objects kind).known pointer inside).kind_ne
  have small := drained.length_lt separable kind
  have notNull : (tableHandle (ctx.objects kind) pointer == kSerialNullHandle) = false :=
    beq_false_of_ne (tableHandle_ne_null small inside)
  have place : (ctx.objects kind).idxOf pointer < (read.objects kind).length := by
    rw [loaded.objects kind isObject]
    exact List.idxOf_lt_length_of_mem inside
  rw [ObjectGraph.imageIn, drained.objectHandle_of_mem separable inside]
  simp only [deserializeResolve, notNull, toNat_tableHandle small inside,
    Nat.add_sub_cancel, List.getElem?_eq_getElem place]
  rfl

/-- What the two passes read is a copy of the graph. -/
theorem Drained.isomorphic (allocated : Allocated start)
    (resolved : Resolved graph.toObjectGraph ctx start (fun _ _ => True) read) :
    graph.Isomorphic ctx read := by
  have loaded := resolved.toLoaded
  have sameImage : graph.imageIn ctx read = graph.imageIn ctx start :=
    imageIn_congr resolved.sameObjects
  have mem_iff (kind : SerialKind) (pointer : Pointer) :
      pointer ∈ ctx.objects kind ↔ graph.Reachable kind pointer :=
    mem_objects_iff drained.toDraining drained.drained
  have placed {kind : SerialKind} {pointer : Pointer} (inside : pointer ∈ ctx.objects kind) :
      (start.objects kind)[(ctx.objects kind).idxOf pointer]? =
        some (graph.imageIn ctx read kind pointer) := by
    rw [← resolved.sameObjects]
    exact drained.getElem?_imageIn separable loaded inside
  exact
    { injective := by
        intro kind pointer otherKind other reachable otherReachable same
        have inside := (mem_iff kind pointer).mpr reachable
        have otherInside := (mem_iff otherKind other).mpr otherReachable
        have otherPlaced := placed otherInside
        rw [← same] at otherPlaced
        obtain ⟨rfl, index⟩ := allocated.distinct _ _ _ _ _ (placed inside) otherPlaced
        exact ⟨rfl, (List.idxOf_inj inside).mp index⟩
      surjective := by
        intro kind object isObject
        obtain ⟨index, found⟩ := List.getElem?_of_mem isObject
        have inRead := (List.getElem?_eq_some_iff.mp found).1
        have notString : kind ≠ .kString := by
          rintro rfl
          rw [loaded.noStrings] at inRead
          exact absurd inRead (Nat.not_lt_zero _)
        have place : index < (ctx.objects kind).length := by
          rw [← loaded.objects kind notString]
          exact inRead
        have inside : (ctx.objects kind)[index] ∈ ctx.objects kind := List.getElem_mem place
        refine ⟨_, (mem_iff kind _).mp inside, ?_⟩
        have image := drained.getElem?_imageIn separable loaded inside
        rw [(drained.objects kind).nodup.idxOf_getElem index place, found] at image
        exact (Option.some.inj image).symm
      null := by
        intro kind pointer not
        rw [ObjectGraph.imageIn, drained.objectHandle_of_not_internable not]
        rfl
      fields := by
        intro kind pointer reachable
        have inside := (mem_iff kind pointer).mpr reachable
        refine ⟨(allocated.inside kind _ (List.mem_of_getElem? (placed inside))).1, ?_⟩
        rw [resolved.filled kind _ pointer _ trivial (List.getElem?_idxOf inside) (placed inside),
          sameImage]
      strings := by
        intro str interned
        exact drained.resolveString separable loaded
          (mem_strings_of_interned drained.toDraining drained.drained interned) }

end

end Resolving

theorem faithful_of_separable (separable : graph.Separable) : graph.Faithful := by
  obtain ⟨ctx, runs, draining, drainedAll⟩ := exists_serialize separable
  have drained : Drained graph ctx := ⟨draining, drainedAll⟩
  refine ⟨graph.bound + 1, ctx, runs, distinctHandles_of_drained separable draining drainedAll,
    complete_of_drained separable draining drainedAll, ?_⟩
  intro initialSize
  obtain ⟨out, writes, _, _, contents⟩ :=
    drained.writes_all _ (isWriter_initOwned initialSize)
  rw [contents_initOwned, List.nil_append] at contents
  refine ⟨out, writes, ?_⟩
  have allocated := allocated_load graph.toObjectGraph ctx
  obtain ⟨read, resolves, resolved⟩ := drained.resolveAll separable allocated
    (loaded_load graph.toObjectGraph ctx)
  have ⟨reads, noError, _⟩ :=
    (drained.consumes_all separable).to_end (unread_initReader (graph.archive ctx))
  refine ⟨read, _, ?_, noError, resolved.noError, drained.isomorphic separable allocated resolved⟩
  rw [contents, reads, resolves]

/-- Strings that `strcmp` does not tell apart get one handle. -/
theorem stringHandle_congr {first second : List Byte} (same : cString first = cString second)
    (ctx : SerializeContext) : ctx.stringHandle first = ctx.stringHandle second := by
  have equal : ctx.stringMap.find strcmp (first ++ [0]) =
      ctx.stringMap.find strcmp (second ++ [0]) := by
    unfold Container.SortedMap.find
    simp only [strcmp, cString_copy, same]
  unfold SerializeContext.stringHandle serializeInternStringN
  simp only [equal]
  split <;> rfl

/-- Distinct handles other than the null handle are fewer than the words. -/
theorem ncard_lt_of_handles {Item : Type} {items : Set Item} {handle : Item → SerialHandle}
    (injective : Set.InjOn handle items) (ne_null : ∀ item ∈ items, handle item ≠ kSerialNullHandle) :
    items.ncard < 2 ^ 32 := by
  have few : items.ncard ≤ ((Finset.Ico 1 (2 ^ 32) : Finset ℕ) : Set ℕ).ncard := by
    apply Set.ncard_le_ncard_of_injOn (fun item => (handle item).toNat)
    · intro item inside
      rw [Finset.coe_Ico]
      refine ⟨Nat.pos_of_ne_zero ?_, (handle item).isLt⟩
      intro zero
      exact ne_null item inside (BitVec.eq_of_toNat_eq zero)
    · intro item inside other otherInside same
      exact injective inside otherInside (BitVec.eq_of_toNat_eq same)
  rw [Set.ncard_coe_finset, Nat.card_Ico] at few
  exact Nat.lt_of_le_of_lt few (by decide)

theorem separable_of_distinctHandles (distinct : graph.DistinctHandles ctx) :
    graph.Separable where
  strings _ _ known otherKnown same :=
    distinct.strings known otherKnown (stringHandle_congr same ctx)
  fewStrings := ncard_lt_of_handles distinct.strings distinct.string_ne_null
  fewObjects kind := ncard_lt_of_handles (distinct.objects kind) (distinct.object_ne_null kind)

/-- Serialising is faithful to exactly those graphs whose strings `strcmp` tells apart and
whose pools the handles can number. -/
theorem faithful_iff (graph : FiniteGraph) : graph.Faithful ↔ graph.Separable := by
  constructor
  · rintro ⟨_, _, _, distinct, _⟩
    exact separable_of_distinctHandles distinct
  · exact faithful_of_separable

/-- A graph without objects, of the string literals `"a"` and `"a\0b"`. -/
def literalGraph : FiniteGraph where
  schema _ _ := none
  fields _ _ := []
  canIntern _ := none
  writingLtoIr := true
  roots := [.string [97], .string [97, 0, 98]]
  typed _ _ _ impossible := absurd impossible List.not_mem_nil
  valid _ _ _ impossible := absurd impossible List.not_mem_nil
  fits _ _ _ impossible := absurd impossible List.not_mem_nil
  rootFits := by
    intro str isRoot
    simp only [List.mem_cons, Root.string.injEq, List.not_mem_nil, or_false] at isRoot
    rcases isRoot with rfl | rfl <;> decide
  recordFits _ _ _ _ := Nat.two_pow_pos 64
  finite := by
    apply Set.finite_empty.subset
    rintro ⟨kind, pointer⟩ reachable
    change ObjectGraph.Reachable _ kind pointer at reachable
    induction reachable with
    | root isRoot => simp at isRoot
    | reference _ _ _ unreachable => exact unreachable

/-- The second literal gets the handle of the first, and its last two bytes are lost. -/
theorem not_faithful_literalGraph : ¬ literalGraph.Faithful := by
  rintro ⟨_, _, _, distinct, _⟩
  have same := (separable_of_distinctHandles distinct).strings [97] [97, 0, 98]
    (.inl List.mem_cons_self) (.inl (List.mem_cons_of_mem _ List.mem_cons_self)) rfl
  exact absurd same (by decide)

end DaveCC.Serialize
