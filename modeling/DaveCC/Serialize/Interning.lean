import DaveCC.Serialize.ObjectGraph
import DaveCC.Serialize.WireRoundTrip
import Mathlib.Data.Set.Finite.Lattice

/-!
# Interning

A pool is a table without duplicates, and a handle is the place of an item in its table.
The maps of a context answer with these handles, as long as the strings of the graph can
be told apart and no table outgrows the handles. Interning keeps the tables growing at
their ends, so a handle that was once given stays.
-/

namespace DaveCC.Serialize

open Container (SortedMap)

section Table

variable {Item : Type} [DecidableEq Item] {table : List Item} {item other : Item}

/-- The handle of an item: its place, counted from one. -/
def tableHandle (table : List Item) (item : Item) : SerialHandle :=
  BitVec.ofNat 32 (table.idxOf item + 1)

theorem toNat_tableHandle (small : table.length < 2 ^ 32) (inside : item ∈ table) :
    (tableHandle table item).toNat = table.idxOf item + 1 := by
  apply Nat.mod_eq_of_lt
  exact Nat.lt_of_le_of_lt (List.idxOf_lt_length_of_mem inside) small

theorem tableHandle_ne_null (small : table.length < 2 ^ 32) (inside : item ∈ table) :
    tableHandle table item ≠ kSerialNullHandle := by
  intro null
  have place := toNat_tableHandle small inside
  rw [null] at place
  exact absurd place.symm (Nat.succ_ne_zero _)

theorem tableHandle_injective (small : table.length < 2 ^ 32) (inside : item ∈ table)
    (otherInside : other ∈ table) (same : tableHandle table item = tableHandle table other) :
    item = other := by
  have places := congrArg BitVec.toNat same
  rw [toNat_tableHandle small inside, toNat_tableHandle small otherInside] at places
  exact (List.idxOf_inj inside).mp (Nat.succ_injective places)

theorem tableHandle_of_grows {longer : List Item} (grows : table <+: longer)
    (inside : item ∈ table) : tableHandle longer item = tableHandle table item := by
  obtain ⟨more, rfl⟩ := grows
  rw [tableHandle, tableHandle, List.idxOf_append_of_mem inside]

theorem tableHandle_new (fresh : item ∉ table) :
    tableHandle (table ++ [item]) item = BitVec.ofNat 32 (table.length + 1) := by
  rw [tableHandle, List.idxOf_append_of_notMem fresh, List.idxOf_cons_self, Nat.add_zero]

theorem getElem?_tableHandle (small : table.length < 2 ^ 32) (inside : item ∈ table) :
    table[(tableHandle table item).toNat - 1]? = some item := by
  rw [toNat_tableHandle small inside, Nat.add_sub_cancel]
  exact List.getElem?_idxOf inside

end Table

section Indexed

variable {Item Key : Type} [DecidableEq Item] {compare : Key → Key → Ordering}
  {copy : Item → Key} {Known : Item → Prop} {map : SortedMap Key SerialHandle}
  {table : List Item} {item : Item}

variable (compare copy Known) in
/-- The map answers with the handles of the table for every known item. -/
structure Indexed (map : SortedMap Key SerialHandle) (table : List Item) : Prop where
  sorted : map.Sorted compare
  nodup : table.Nodup
  known : ∀ item ∈ table, Known item
  find : ∀ item, Known item → map.find compare (copy item) =
    if item ∈ table then some (tableHandle table item) else none

omit [DecidableEq Item] in
theorem length_lt_of_ncard_lt {bound : ℕ} (nodup : table.Nodup) (known : ∀ item ∈ table, Known item)
    (finite : { item | Known item }.Finite) (few : { item | Known item }.ncard < bound) :
    table.length < bound := by
  classical
  have inside : (table.toFinset : Set Item) ⊆ { item | Known item } := by
    intro item member
    exact known item (List.mem_toFinset.mp member)
  rw [← List.toFinset_card_of_nodup nodup, ← Set.ncard_coe_finset]
  exact Nat.lt_of_le_of_lt (Set.ncard_le_ncard inside finite) few

namespace Indexed

theorem empty : Indexed compare copy Known {} ([] : List Item) where
  sorted := SortedMap.sorted_empty
  nodup := List.nodup_nil
  known _ member := absurd member List.not_mem_nil
  find _ _ := rfl

/-- A new item goes to the end of the table, with its handle in the map. -/
theorem append [Std.TransCmp compare] (indexed : Indexed compare copy Known map table)
    (separates : ∀ first second, Known first → Known second → (compare (copy first) (copy second)
      = .eq ↔ first = second)) (known : Known item) (fresh : item ∉ table) :
    Indexed compare copy Known (map.insert compare (copy item) (BitVec.ofNat 32 (table.length + 1)))
      (table ++ [item]) where
  sorted := SortedMap.sorted_insert indexed.sorted _ _
  nodup := by
    rw [List.nodup_append]
    refine ⟨indexed.nodup, List.nodup_singleton _, ?_⟩
    intro other inside added isAdded same
    rw [List.mem_singleton.mp isAdded] at same
    exact fresh (same ▸ inside)
  known := by
    intro other inside
    rcases List.mem_append.mp inside with inside | added
    · exact indexed.known other inside
    · exact List.mem_singleton.mp added ▸ known
  find := by
    intro other otherKnown
    rw [SortedMap.find_insert indexed.sorted, indexed.find other otherKnown]
    simp only [separates other item otherKnown known, List.mem_append, List.mem_singleton]
    by_cases same : other = item
    · subst same
      rw [if_pos rfl, if_pos (.inr rfl), tableHandle_new fresh]
    · by_cases inside : other ∈ table
      · rw [if_neg same, if_pos inside, if_pos (.inl inside),
          tableHandle_of_grows (List.prefix_append _ _) inside]
      · rw [if_neg same, if_neg inside, if_neg (by simp [same, inside])]

end Indexed

end Indexed

theorem cString_copy (str : List Byte) : cString (str ++ [0]) = cString str := by
  unfold cString
  induction str with
  | nil => rfl
  | cons byte rest ih =>
    rw [List.cons_append, List.takeWhile_cons, List.takeWhile_cons, ih]

instance : Std.TransCmp strcmp where
  eq_swap {first second} :=
    Std.OrientedOrd.eq_swap (a := cString first) (b := cString second)
  isLE_trans {first second third} :=
    Std.TransOrd.isLE_trans (a := cString first) (b := cString second) (c := cString third)

theorem strcmp_eq_iff (first second : List Byte) :
    strcmp first second = .eq ↔ cString first = cString second :=
  Std.LawfulEqOrd.compare_eq_iff_eq

/-- The interned strings, without their terminators. -/
def SerializeContext.strings (ctx : SerializeContext) : List (List Byte) :=
  ctx.stringPool.map List.dropLast

/-- The maps agree with the tables, which hold nothing but what the graph has. -/
structure Interned (graph : FiniteGraph) (ctx : SerializeContext) : Prop where
  flag : ctx.writingLtoIr = graph.writingLtoIr
  objects : ∀ kind, Indexed compare id (graph.Reachable kind) (ctx.handleMaps kind)
    (ctx.objects kind)
  strings : Indexed strcmp (· ++ [0]) graph.InternedString ctx.stringMap ctx.strings
  pool : ctx.stringPool = ctx.strings.map (· ++ [0])
  lens : ctx.stringLens = ctx.strings.map List.length

/-- The second context has what the first has, at the same handles. -/
structure Grows (ctx next : SerializeContext) : Prop where
  objects : ∀ kind, ctx.objects kind <+: next.objects kind
  strings : ctx.strings <+: next.strings

/-- The contexts differ in nothing but their tables, which grow. -/
structure Extends (ctx next : SerializeContext) : Prop extends Grows ctx next where
  processed : next.processed = ctx.processed
  serialized : next.serialized = ctx.serialized
  error : next.error = ctx.error

theorem Grows.trans {ctx next last : SerializeContext} (first : Grows ctx next)
    (second : Grows next last) : Grows ctx last where
  objects kind := (first.objects kind).trans (second.objects kind)
  strings := first.strings.trans second.strings

namespace Extends

variable {ctx next last : SerializeContext}

theorem refl (ctx : SerializeContext) : Extends ctx ctx :=
  ⟨⟨fun _ => List.prefix_rfl, List.prefix_rfl⟩, rfl, rfl, rfl⟩

theorem trans (first : Extends ctx next) (second : Extends next last) : Extends ctx last where
  toGrows := first.toGrows.trans second.toGrows
  processed := second.processed.trans first.processed
  serialized := second.serialized.trans first.serialized
  error := second.error.trans first.error

end Extends

namespace ObjectGraph

theorem Reachable.internable {graph : ObjectGraph} {kind : SerialKind} {pointer : Pointer}
    (reachable : graph.Reachable kind pointer) : graph.Internable kind pointer := by
  cases reachable with
  | root _ internable => exact internable
  | reference _ _ internable => exact internable

theorem Reachable.kind_ne {graph : ObjectGraph} {kind : SerialKind} {pointer : Pointer}
    (reachable : graph.Reachable kind pointer) : kind ≠ .kString := by
  cases reachable with
  | @root kind => exact kind.2
  | @reference _ _ _ kind => exact kind.2

end ObjectGraph

section Objects

variable {graph : FiniteGraph} {ctx : SerializeContext} {kind : SerialKind} {pointer : Pointer}

theorem serializeIntern_of_not_internable (flag : ctx.writingLtoIr = graph.writingLtoIr)
    (not : ¬ graph.Internable kind pointer) :
    serializeIntern graph.canIntern ctx kind pointer = (kSerialNullHandle, ctx) := by
  unfold serializeIntern
  split_ifs with null excluded refused
  · rfl
  · rfl
  · rfl
  · exfalso
    apply not
    refine ⟨by simpa using null, ?_, ?_⟩
    · rw [← flag]
      simpa using excluded
    · intro canIntern known
      simp only [Option.any_eq_true, not_exists, not_and] at refused
      simpa using refused canIntern known

/-- An object that may be interned is looked up and, when it is new, added. -/
theorem serializeIntern_of_internable (flag : ctx.writingLtoIr = graph.writingLtoIr)
    (internable : graph.Internable kind pointer) :
    serializeIntern graph.canIntern ctx kind pointer =
      if ((ctx.handleMaps kind).find compare pointer).getD 0 != 0 then
        (((ctx.handleMaps kind).find compare pointer).getD 0, ctx)
      else
        (BitVec.ofNat 32 ((ctx.objects kind).length + 1),
          ctx.addObject kind pointer (BitVec.ofNat 32 ((ctx.objects kind).length + 1))) := by
  have ⟨nonnull, included, accepted⟩ := internable
  unfold serializeIntern
  rw [if_neg, if_neg, if_neg]
  · simp only [Option.any_eq_true, not_exists, not_and]
    intro canIntern known
    simpa using accepted canIntern known
  · rw [flag]
    simpa using included
  · simpa using nonnull

section

variable (interned : Interned graph ctx)

include interned

theorem Interned.length_lt (separable : graph.Separable) (kind : SerialKind) :
    (ctx.objects kind).length < 2 ^ 32 := by
  apply length_lt_of_ncard_lt (interned.objects kind).nodup (interned.objects kind).known _
    (separable.fewObjects kind)
  apply (graph.finite.image Prod.snd).subset
  intro pointer reachable
  exact ⟨(kind, pointer), reachable, rfl⟩

theorem Interned.intern_of_mem (separable : graph.Separable) (inside : pointer ∈ ctx.objects kind) :
    serializeIntern graph.canIntern ctx kind pointer =
      (tableHandle (ctx.objects kind) pointer, ctx) := by
  have reachable := (interned.objects kind).known pointer inside
  have found := (interned.objects kind).find pointer reachable
  rw [id_eq, if_pos inside] at found
  rw [serializeIntern_of_internable interned.flag reachable.internable, found, if_pos]
  · rfl
  · exact bne_iff_ne.mpr (tableHandle_ne_null (interned.length_lt separable kind) inside)

theorem Interned.objectHandle_of_mem (separable : graph.Separable)
    (inside : pointer ∈ ctx.objects kind) :
    graph.objectHandle ctx kind pointer = tableHandle (ctx.objects kind) pointer :=
  congrArg Prod.fst (interned.intern_of_mem separable inside)

theorem Interned.objectHandle_of_not_internable (not : ¬ graph.Internable kind pointer) :
    graph.objectHandle ctx kind pointer = kSerialNullHandle :=
  congrArg Prod.fst (serializeIntern_of_not_internable interned.flag not)

theorem Interned.addObject (reachable : graph.Reachable kind pointer)
    (fresh : pointer ∉ ctx.objects kind) :
    Interned graph
      (ctx.addObject kind pointer (BitVec.ofNat 32 ((ctx.objects kind).length + 1))) where
  flag := interned.flag
  objects := by
    intro other
    by_cases same : other = kind
    · subst same
      rw [SerializeContext.addObject_objects_self, SerializeContext.addObject_handleMaps_self]
      apply (interned.objects other).append _ reachable fresh
      intro first second _ _
      exact Std.LawfulEqOrd.compare_eq_iff_eq
    · rw [SerializeContext.addObject_objects_of_ne _ same,
        SerializeContext.addObject_handleMaps_of_ne _ same]
      exact interned.objects other
  strings := interned.strings
  pool := interned.pool
  lens := interned.lens

end

theorem extends_addObject (ctx : SerializeContext) (kind : SerialKind) (pointer : Pointer)
    (handle : SerialHandle) : Extends ctx (ctx.addObject kind pointer handle) where
  objects := by
    intro other
    by_cases same : other = kind
    · subst same
      rw [SerializeContext.addObject_objects_self]
      exact List.prefix_append _ _
    · rw [SerializeContext.addObject_objects_of_ne _ same]
  strings := List.prefix_rfl
  processed := rfl
  serialized := rfl
  error := rfl

/-- Interning an object of the graph gives it its handle, unless it may not be interned. -/
theorem Interned.intern (interned : Interned graph ctx) (kind : SerialKind)
    (pointer : Pointer) (separable : graph.Separable)
    (reaches : graph.Internable kind pointer → graph.Reachable kind pointer) :
    ∃ next, serializeIntern graph.canIntern ctx kind pointer =
        (graph.objectHandle next kind pointer, next) ∧
      Interned graph next ∧ Extends ctx next ∧
      (graph.Internable kind pointer → pointer ∈ next.objects kind) := by
  by_cases internable : graph.Internable kind pointer
  · by_cases inside : pointer ∈ ctx.objects kind
    · refine ⟨ctx, ?_, interned, .refl ctx, fun _ => inside⟩
      rw [interned.objectHandle_of_mem separable inside, interned.intern_of_mem separable inside]
    · have found := (interned.objects kind).find pointer (reaches internable)
      rw [id_eq, if_neg inside] at found
      have next := interned.addObject (reaches internable) inside
      have added : pointer ∈ (ctx.addObject kind pointer
          (BitVec.ofNat 32 ((ctx.objects kind).length + 1))).objects kind := by
        rw [SerializeContext.addObject_objects_self]
        exact List.mem_append_right _ (List.mem_singleton_self _)
      refine ⟨_, ?_, next, extends_addObject _ _ _ _, fun _ => added⟩
      rw [next.objectHandle_of_mem separable added, SerializeContext.addObject_objects_self,
        tableHandle_new inside, serializeIntern_of_internable interned.flag internable, found]
      exact if_neg (by decide)
  · refine ⟨ctx, ?_, interned, .refl ctx, fun holds => absurd holds internable⟩
    rw [interned.objectHandle_of_not_internable internable,
      serializeIntern_of_not_internable interned.flag internable]

end Objects

/-! ## Strings -/

section Strings

variable {graph : FiniteGraph} {ctx : SerializeContext} {str : List Byte}

/-- A finite graph has finitely many strings. -/
theorem finite_internedString (graph : FiniteGraph) :
    { str | graph.InternedString str }.Finite := by
  have rootStrings : { str | Root.string str ∈ graph.roots }.Finite := by
    exact graph.roots.finite_toSet.preimage fun _ _ _ _ same => Root.string.inj same
  have fieldStrings := Set.Finite.biUnion graph.finite fun node _ =>
    (((graph.fields node.1 node.2).finite_toSet.preimage
      (f := fun field : BitVec 32 × _ => ObjectField.string field.1 (some field.2)) (by
        rintro ⟨_, _⟩ _ ⟨_, _⟩ _ same
        cases same
        rfl)).image Prod.snd)
  apply (rootStrings.union fieldStrings).subset
  intro str interned
  rcases interned with isRoot | ⟨kind, object, fieldNumber, reachable, isField⟩
  · exact .inl isRoot
  · have node : (kind, object) ∈ { node : SerialKind × Pointer | graph.Reachable node.1 node.2 } :=
      reachable
    exact .inr (Set.mem_biUnion node ⟨(_, _), isField, rfl⟩)

theorem Interned.length_strings_lt (interned : Interned graph ctx)
    (separable : graph.Separable) : ctx.strings.length < 2 ^ 32 :=
  length_lt_of_ncard_lt interned.strings.nodup interned.strings.known
    (finite_internedString graph) separable.fewStrings

theorem Interned.length_stringPool (interned : Interned graph ctx) :
    ctx.stringPool.length = ctx.strings.length := by
  rw [interned.pool, List.length_map]

theorem Interned.internString_of_mem (interned : Interned graph ctx)
    (separable : graph.Separable) (inside : str ∈ ctx.strings) :
    serializeInternStringN ctx (some str) = (tableHandle ctx.strings str, ctx) := by
  have found := interned.strings.find str (interned.strings.known str inside)
  rw [if_pos inside] at found
  simp only [serializeInternStringN, found, Option.getD_some]
  exact if_pos (bne_iff_ne.mpr (tableHandle_ne_null (interned.length_strings_lt separable) inside))

theorem Interned.stringHandle_of_mem (interned : Interned graph ctx) (separable : graph.Separable)
    (inside : str ∈ ctx.strings) : ctx.stringHandle str = tableHandle ctx.strings str :=
  congrArg Prod.fst (interned.internString_of_mem separable inside)

theorem strings_addString (ctx : SerializeContext) (str : List Byte) (len : ℕ)
    (handle : SerialHandle) :
    (ctx.addString (str ++ [0]) len handle).strings = ctx.strings ++ [str] := by
  rw [SerializeContext.strings, SerializeContext.addString, List.map_append,
    List.map_singleton, List.dropLast_concat, SerializeContext.strings]

theorem Interned.addString (interned : Interned graph ctx) (separable : graph.Separable)
    (known : graph.InternedString str) (fresh : str ∉ ctx.strings) :
    Interned graph (ctx.addString (str ++ [0]) str.length
      (BitVec.ofNat 32 (ctx.stringPool.length + 1))) where
  flag := interned.flag
  objects := interned.objects
  strings := by
    rw [strings_addString, interned.length_stringPool]
    apply interned.strings.append _ known fresh
    intro first second knownFirst knownSecond
    rw [strcmp_eq_iff, cString_copy, cString_copy]
    exact ⟨separable.strings first second knownFirst knownSecond, congrArg cString⟩
  pool := by
    rw [strings_addString, List.map_append, ← interned.pool]
    rfl
  lens := by
    rw [strings_addString, List.map_append, ← interned.lens]
    rfl

/-- Interning a string of the graph gives it its handle. -/
theorem Interned.internString (interned : Interned graph ctx) (separable : graph.Separable)
    (known : graph.InternedString str) :
    ∃ next, serializeInternStringN ctx (some str) = (next.stringHandle str, next) ∧
      Interned graph next ∧ Extends ctx next ∧ str ∈ next.strings := by
  by_cases inside : str ∈ ctx.strings
  · refine ⟨ctx, ?_, interned, .refl ctx, inside⟩
    rw [interned.stringHandle_of_mem separable inside,
      interned.internString_of_mem separable inside]
  · have found := interned.strings.find str known
    rw [if_neg inside] at found
    have next := interned.addString separable known inside
    have strings := strings_addString ctx str str.length
      (BitVec.ofNat 32 (ctx.stringPool.length + 1))
    have added : str ∈ (ctx.addString (str ++ [0]) str.length
        (BitVec.ofNat 32 (ctx.stringPool.length + 1))).strings := by
      rw [strings]
      exact List.mem_append_right _ (List.mem_singleton_self _)
    refine ⟨_, ?_, next, ?_, added⟩
    · rw [next.stringHandle_of_mem separable added, strings, tableHandle_new inside,
        ← interned.length_stringPool]
      simp only [serializeInternStringN, found]
      rfl
    · exact
        { objects := fun _ => List.prefix_rfl
          strings := by
            rw [strings]
            exact List.prefix_append _ _
          processed := rfl
          serialized := rfl
          error := rfl }

end Strings

section Fields

variable {graph : FiniteGraph} {ctx next : SerializeContext} {kind : SerialKind} {pointer : Pointer}

/-- The context has what a field refers to. -/
def SerializeContext.Has (graph : ObjectGraph) (ctx : SerializeContext) : ObjectField → Prop
  | .scalar _ _ => True
  | .reference _ kind target => graph.Internable kind target → target ∈ ctx.objects kind
  | .string _ str => ∀ bytes ∈ str, bytes ∈ ctx.strings

theorem Grows.has (grows : Grows ctx next) {field : ObjectField}
    (has : ctx.Has graph.toObjectGraph field) : next.Has graph.toObjectGraph field := by
  cases field with
  | scalar _ _ => exact trivial
  | reference _ kind target =>
    exact fun internable => (grows.objects kind).subset (has internable)
  | string _ str => exact fun bytes isStr => grows.strings.subset (has bytes isStr)

variable {field : ObjectField}

/-- The bytes of a field do not change once the context has what it refers to. -/
theorem encode_of_grows (separable : graph.Separable) (interned : Interned graph ctx)
    (internedNext : Interned graph next) (grows : Grows ctx next)
    (has : ctx.Has graph.toObjectGraph field) :
    field.encode (graph.objectHandle next) next.stringHandle =
      field.encode (graph.objectHandle ctx) ctx.stringHandle := by
  cases field with
  | scalar _ _ => rfl
  | reference fieldNumber kind target =>
    have same : graph.objectHandle next kind target = graph.objectHandle ctx kind target := by
      by_cases internable : graph.Internable kind target
      · have inside := has internable
        rw [interned.objectHandle_of_mem separable inside,
          internedNext.objectHandle_of_mem separable ((grows.objects kind).subset inside),
          tableHandle_of_grows (grows.objects kind) inside]
      · rw [interned.objectHandle_of_not_internable internable,
          internedNext.objectHandle_of_not_internable internable]
    rw [ObjectField.encode, ObjectField.encode, same]
  | string fieldNumber str =>
    cases str with
    | none => rfl
    | some bytes =>
      have inside := has bytes rfl
      have same : next.stringHandle bytes = ctx.stringHandle bytes := by
        rw [interned.stringHandle_of_mem separable inside, internedNext.stringHandle_of_mem
          separable (grows.strings.subset inside), tableHandle_of_grows grows.strings inside]
      simp [ObjectField.encode, same]

variable {buf : WireBuffer}

/-- Writing a field of a reachable object interns what it refers to and appends its
bytes. -/
theorem Interned.writeField (separable : graph.Separable) (interned : Interned graph ctx)
    (reachable : graph.Reachable kind pointer) (isField : field ∈ graph.fields kind pointer)
    (writer : buf.IsWriter) :
    ∃ next after, graph.writeField ctx field buf = (next, after) ∧ Interned graph next ∧
      Extends ctx next ∧ next.Has graph.toObjectGraph field ∧ after.IsWriter ∧
      after.wireBufferContents = buf.wireBufferContents ++
        field.encode (graph.objectHandle next) next.stringHandle := by
  cases field with
  | scalar fieldNumber value =>
    obtain ⟨after, runs, afterWriter, _, contents⟩ := writes_value fieldNumber value buf writer
    exact ⟨ctx, after, run_bind runs, interned, .refl ctx, trivial, afterWriter, contents⟩
  | reference fieldNumber kind target =>
    obtain ⟨next, interns, internedNext, grows, inside⟩ :=
      interned.intern kind target separable
        fun internable => .reference reachable isField internable
    obtain ⟨after, runs, afterWriter, _, contents⟩ := writes_value fieldNumber
      (.varint ((graph.objectHandle next kind target).setWidth 64)) buf writer
    refine ⟨next, after, ?_, internedNext, grows, inside, afterWriter, contents⟩
    unfold ObjectGraph.writeField
    simp only [interns]
    exact run_bind runs
  | string fieldNumber str =>
    cases str with
    | none =>
      obtain ⟨after, runs, afterWriter, _, contents⟩ := writes_value fieldNumber
        (.varint (kSerialNullHandle.setWidth 64)) buf writer
      refine ⟨ctx, after, ?_, interned, .refl ctx, ?_, afterWriter, contents⟩
      · exact run_bind runs
      · intro bytes impossible
        cases impossible
    | some bytes =>
      obtain ⟨next, interns, internedNext, grows, inside⟩ :=
        interned.internString separable (.inr ⟨kind, pointer, fieldNumber, reachable, isField⟩)
      obtain ⟨after, runs, afterWriter, _, contents⟩ := writes_value fieldNumber
        (.varint ((next.stringHandle bytes).setWidth 64)) buf writer
      refine ⟨next, after, ?_, internedNext, grows, ?_, afterWriter, contents⟩
      · unfold ObjectGraph.writeField
        simp only [interns]
        exact run_bind runs
      · intro other same
        cases same
        exact inside

/-- The bytes of an object's record, with the handles of a context. -/
def ObjectGraph.record (graph : ObjectGraph) (ctx : SerializeContext) (kind : SerialKind)
    (pointer : Pointer) : List Byte :=
  (graph.fields kind pointer).flatMap (ObjectField.encode (graph.objectHandle ctx) ctx.stringHandle)

theorem Interned.writeFields (separable : graph.Separable)
    (reachable : graph.Reachable kind pointer) {fields : List ObjectField}
    (areFields : ∀ field ∈ fields, field ∈ graph.fields kind pointer)
    (interned : Interned graph ctx) (writer : buf.IsWriter) :
    ∃ next after, graph.writeFields ctx fields buf = (next, after) ∧ Interned graph next ∧
      Extends ctx next ∧ (∀ field ∈ fields, next.Has graph.toObjectGraph field) ∧
      after.IsWriter ∧
      after.wireBufferContents = buf.wireBufferContents ++
        fields.flatMap (ObjectField.encode (graph.objectHandle next) next.stringHandle) := by
  induction fields generalizing ctx buf with
  | nil =>
    refine ⟨ctx, buf, rfl, interned, .refl ctx, ?_, writer, (List.append_nil _).symm⟩
    exact fun field impossible => absurd impossible List.not_mem_nil
  | cons field rest ih =>
    obtain ⟨middle, middleBuf, runs, internedMiddle, grows, has, middleWriter, contents⟩ :=
      interned.writeField separable reachable (areFields field List.mem_cons_self) writer
    obtain ⟨last, lastBuf, runsRest, internedLast, growsRest, hasRest, lastWriter, lastContents⟩ :=
      ih (fun other inside => areFields other (List.mem_cons_of_mem _ inside)) internedMiddle
        middleWriter
    refine ⟨last, lastBuf, ?_, internedLast, grows.trans growsRest, ?_, lastWriter, ?_⟩
    · unfold ObjectGraph.writeFields
      rw [run_bind runs]
      exact runsRest
    · intro other inside
      rcases List.mem_cons.mp inside with rfl | inside
      · exact growsRest.toGrows.has has
      · exact hasRest other inside
    · rw [lastContents, contents, List.append_assoc, List.flatMap_cons,
        encode_of_grows separable internedMiddle internedLast growsRest.toGrows has]

/-- The `write` callback of a reachable object succeeds with the object's record. -/
theorem Interned.write (separable : graph.Separable) (reachable : graph.Reachable kind pointer)
    (interned : Interned graph ctx) (initialSize : ℕ) :
    ∃ next buf, graph.write kind pointer ctx (wireBufferInitOwned initialSize) =
        ((true, next), buf) ∧
      Interned graph next ∧ Extends ctx next ∧
      (∀ field ∈ graph.fields kind pointer, next.Has graph.toObjectGraph field) ∧
      buf.IsWriter ∧ buf.wireBufferContents = graph.record next kind pointer := by
  obtain ⟨next, buf, runs, internedNext, grows, has, writer, contents⟩ :=
    interned.writeFields separable reachable (fun _ inside => inside)
      (WireBuffer.isWriter_initOwned initialSize)
  refine ⟨next, buf, ?_, internedNext, grows, has, writer, contents⟩
  unfold ObjectGraph.write
  rw [run_bind runs]
  show ((!buf.error, next), buf) = _
  rw [writer.noError]
  rfl

theorem record_of_grows (separable : graph.Separable) (interned : Interned graph ctx)
    (internedNext : Interned graph next) (grows : Grows ctx next)
    (has : ∀ field ∈ graph.fields kind pointer, ctx.Has graph.toObjectGraph field) :
    graph.record next kind pointer = graph.record ctx kind pointer := by
  apply List.flatMap_congr
  intro field isField
  exact encode_of_grows separable interned internedNext grows (has field isField)

end Fields

end DaveCC.Serialize
