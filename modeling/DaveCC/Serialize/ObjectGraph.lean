import DaveCC.Serialize.SerializeContext
import DaveCC.Serialize.WireReader
import Mathlib.Data.Set.Card

/-!
# Graphs of objects

A graph is what a program hands to the serialiser: the fields of each object, with
scalars, references to other objects and strings, and the roots it interns itself. The
callbacks of a kind write the fields in order, interning what they refer to, and read
them back one tag at a time by the kind's schema.
-/

namespace DaveCC.Serialize

/-- A kind whose objects have fields. -/
abbrev ObjectKind := { kind : SerialKind // kind ≠ .kString }

inductive FieldType where
  | scalar (kind : WireKind)
  | reference (kind : ObjectKind)
  | string
  deriving DecidableEq

/-- A field of an object. A string is its bytes, as many as its length says. -/
inductive ObjectField where
  | scalar (fieldNumber : BitVec 32) (value : WireValue)
  | reference (fieldNumber : BitVec 32) (kind : ObjectKind) (target : Pointer)
  | string (fieldNumber : BitVec 32) (str : Option (List Byte))
  deriving DecidableEq

namespace ObjectField

def fieldNumber : ObjectField → BitVec 32
  | .scalar fieldNumber _ => fieldNumber
  | .reference fieldNumber _ _ => fieldNumber
  | .string fieldNumber _ => fieldNumber

def type : ObjectField → FieldType
  | .scalar _ value => .scalar value.kind
  | .reference _ kind _ => .reference kind
  | .string _ _ => .string

/-- The lengths in the field are sizes. -/
def Fits : ObjectField → Prop
  | .scalar _ value => value.Fits
  | .reference _ _ _ => True
  | .string _ str => ∀ bytes ∈ str, bytes.length < 2 ^ 64

/-- The bytes of the field, given the handles of objects and strings. -/
def encode (objectHandle : SerialKind → Pointer → SerialHandle)
    (stringHandle : List Byte → SerialHandle) : ObjectField → List Byte
  | .scalar fieldNumber value => tagBytes fieldNumber value.kind.wireType ++ value.payload
  | .reference fieldNumber kind target =>
    tagBytes fieldNumber .varint ++ varint ((objectHandle kind target).setWidth 64)
  | .string fieldNumber str =>
    tagBytes fieldNumber .varint ++ varint ((str.elim kSerialNullHandle stringHandle).setWidth 64)

/-- The field with the objects renamed. -/
def rename (image : SerialKind → Pointer → Pointer) : ObjectField → ObjectField
  | .reference fieldNumber kind target => .reference fieldNumber kind (image kind target)
  | field => field

end ObjectField

/-- What a caller interns before the drain. -/
inductive Root where
  | object (kind : ObjectKind) (pointer : Pointer)
  | string (str : List Byte)

/-- The memory that a reader allocates its objects in: the fields at the pointers one, two
and so on. -/
abbrev ObjectMemory := List (List ObjectField)

structure ObjectGraph where
  /-- The fields that the reader of a kind knows. -/
  schema : SerialKind → BitVec 32 → Option FieldType
  fields : SerialKind → Pointer → List ObjectField
  canIntern : SerialKind → Option (Pointer → Bool)
  writingLtoIr : Bool
  roots : List Root

namespace ObjectGraph

variable (graph : ObjectGraph)

/-- Write a field, interning what it refers to. -/
def writeField (ctx : SerializeContext) : ObjectField → StateM WireBuffer SerializeContext
  | .scalar fieldNumber value => do
      let _ ← value.write fieldNumber
      return ctx
  | .reference fieldNumber kind target => do
      let (handle, ctx) := serializeIntern graph.canIntern ctx kind target
      let _ ← wireWriteVarint fieldNumber (handle.setWidth 64)
      return ctx
  | .string fieldNumber str => do
      let (handle, ctx) := serializeInternStringN ctx str
      let _ ← wireWriteVarint fieldNumber (handle.setWidth 64)
      return ctx

def writeFields (ctx : SerializeContext) :
    List ObjectField → StateM WireBuffer SerializeContext
  | [] => return ctx
  | field :: rest => do
      let ctx ← graph.writeField ctx field
      writeFields ctx rest

/-- The `write` callback of a kind. -/
def write (kind : SerialKind) (object : Pointer) (ctx : SerializeContext) :
    StateM WireBuffer (Bool × SerializeContext) := do
  let ctx ← graph.writeFields ctx (graph.fields kind object)
  return (!(← get).error, ctx)

/-- The `alloc` callback: an object without fields. -/
def alloc (_ : List Byte) (ctx : DeserializeContext ObjectMemory) :
    Pointer × DeserializeContext ObjectMemory :=
  (ctx.memory.length + 1, { ctx with memory := ctx.memory ++ [[]] })

/-- Add a field to an object. -/
def store (ctx : DeserializeContext ObjectMemory) (object : Pointer) (field : ObjectField) :
    DeserializeContext ObjectMemory :=
  { ctx with memory := ctx.memory.modify (object - 1) (· ++ [field]) }

/-- Read the field that a tag announces. Unknown fields are skipped. -/
def readField (kind : SerialKind) (object : Pointer) (ctx : DeserializeContext ObjectMemory)
    (fieldNumber : BitVec 32) (wireType : WireType) :
    StateM WireBuffer (DeserializeContext ObjectMemory) :=
  match graph.schema kind fieldNumber with
  | none => do
      let _ ← wireSkip wireType
      return ctx
  | some (.scalar valueKind) => do
      let some value ← valueKind.read | return ctx
      return store ctx object (.scalar fieldNumber value)
  | some (.reference target) => do
      let some handle ← wireReadVarint | return ctx
      let (pointer, ctx) := deserializeResolve ctx target (handle.setWidth 32)
      return store ctx object (.reference fieldNumber target pointer)
  | some .string => do
      let some handle ← wireReadVarint | return ctx
      let ((str, len), ctx) := deserializeResolveString ctx (handle.setWidth 32)
      return store ctx object (.string fieldNumber (str.map (·.take len)))

/-- The loop over the tags of a record. An iteration that goes on has read a byte, so the
record's length is fuel enough. -/
def readFields (kind : SerialKind) (object : Pointer) :
    ℕ → DeserializeContext ObjectMemory → StateM WireBuffer (DeserializeContext ObjectMemory)
  | 0, ctx => return ctx
  | fuel + 1, ctx => do
      if (← get).wireBufferEof || (← get).error then return ctx
      let some (fieldNumber, wireType) ← wireReadTag | return ctx
      let ctx ← graph.readField kind object ctx fieldNumber wireType
      readFields kind object fuel ctx

/-- The `read` callback of a kind. -/
def read (kind : SerialKind) (object : Pointer) (ctx : DeserializeContext ObjectMemory) :
    StateM WireBuffer (Bool × DeserializeContext ObjectMemory) := do
  let ctx ← graph.readFields kind object (← get).limit ctx
  return (!(← get).error, ctx)

def registry (kind : SerialKind) : Option (SerialKindVtable ObjectMemory) :=
  some
    { write := some (graph.write kind)
      alloc := some alloc
      read := some (graph.read kind)
      canIntern := graph.canIntern kind }

/-! ## Runs -/

def internRoot (ctx : SerializeContext) : Root → SerializeContext
  | .object kind pointer => (serializeIntern graph.canIntern ctx kind pointer).2
  | .string str => (serializeInternStringN ctx (some str)).2

/-- Intern the roots into a new context and drain it. -/
def serialize (fuel : ℕ) : Option (Bool × SerializeContext) :=
  serializeContextDrain graph.registry fuel
    (graph.roots.foldl graph.internRoot { writingLtoIr := graph.writingLtoIr })

def objectKinds : List SerialKind :=
  SerialKind.all.tail

/-- Write the pools of some kinds. -/
def writePools (ctx : SerializeContext) : List SerialKind → StateM WireBuffer Bool
  | [] => return true
  | kind :: rest => do
      if !(← serializeWritePool ctx kind) then return false
      writePools ctx rest

/-- Write the string pool and the pools after it. -/
def writeAll (ctx : SerializeContext) : StateM WireBuffer Bool := do
  if !(← serializeWriteStringPool ctx) then return false
  writePools ctx objectKinds

/-- Read the pools of some kinds. -/
def readPools (ctx : DeserializeContext ObjectMemory) :
    List SerialKind → StateM WireBuffer (Bool × DeserializeContext ObjectMemory)
  | [] => return (true, ctx)
  | kind :: rest => do
      let (isRead, ctx) ← serializeReadPool graph.registry ctx kind
      if !isRead then return (false, ctx)
      readPools ctx rest

/-- Read the string pool and the pools, and resolve the objects. -/
def readAll : StateM WireBuffer (Bool × DeserializeContext ObjectMemory) := do
  let (isRead, ctx) ← serializeReadStringPool { memory := [] }
  if !isRead then return (false, ctx)
  let (isRead, ctx) ← graph.readPools ctx objectKinds
  if !isRead then return (false, ctx)
  return deserializeContextResolve graph.registry ctx

/-- The object gets a handle. -/
def Internable (kind : SerialKind) (pointer : Pointer) : Prop :=
  pointer ≠ 0 ∧ ¬ (graph.writingLtoIr = true ∧ (kind = .kAST ∨ kind = .kNamespace)) ∧
    ∀ canIntern ∈ graph.canIntern kind, canIntern pointer = true

/-- The objects that the roots lead to. -/
inductive Reachable : SerialKind → Pointer → Prop where
  | root {kind : ObjectKind} {pointer : Pointer} (isRoot : .object kind pointer ∈ graph.roots)
      (internable : graph.Internable kind pointer) : Reachable kind pointer
  | reference {owner : SerialKind} {object : Pointer} {fieldNumber : BitVec 32}
      {kind : ObjectKind} {target : Pointer} (reachable : Reachable owner object)
      (refers : .reference fieldNumber kind target ∈ graph.fields owner object)
      (internable : graph.Internable kind target) : Reachable kind target

/-- The strings that the roots and the objects have. -/
def InternedString (str : List Byte) : Prop :=
  .string str ∈ graph.roots ∨ ∃ kind object fieldNumber, graph.Reachable kind object ∧
    .string fieldNumber (some str) ∈ graph.fields kind object

end ObjectGraph

/-- A finite graph that memory can hold: the fields are those of the schema, and the
lengths of strings and records are sizes. -/
structure FiniteGraph extends ObjectGraph where
  typed : ∀ kind pointer, ∀ field ∈ fields kind pointer,
    schema kind field.fieldNumber = some field.type
  valid : ∀ kind pointer, ∀ field ∈ fields kind pointer, ValidFieldNumber field.fieldNumber
  fits : ∀ kind pointer, ∀ field ∈ fields kind pointer, field.Fits
  rootFits : ∀ str, Root.string str ∈ roots → str.length < 2 ^ 64
  recordFits : ∀ kind pointer objectHandle stringHandle,
    ((fields kind pointer).flatMap (ObjectField.encode objectHandle stringHandle)).length < 2 ^ 64
  finite : { node : SerialKind × Pointer | toObjectGraph.Reachable node.1 node.2 }.Finite

/-- The handle that `SerializeInternStringN` gives a string. -/
def SerializeContext.stringHandle (ctx : SerializeContext) (str : List Byte) : SerialHandle :=
  (serializeInternStringN ctx (some str)).1

namespace ObjectGraph

variable (graph : ObjectGraph)

/-- The handle that `SerializeIntern` gives an object. -/
def objectHandle (ctx : SerializeContext) (kind : SerialKind) (pointer : Pointer) :
    SerialHandle :=
  (serializeIntern graph.canIntern ctx kind pointer).1

/-- Distinct objects of a kind and distinct strings have distinct handles, none of them
the null handle. -/
structure DistinctHandles (ctx : SerializeContext) : Prop where
  objects : ∀ kind, Set.InjOn (graph.objectHandle ctx kind) { pointer | graph.Reachable kind pointer }
  object_ne_null : ∀ kind pointer, graph.Reachable kind pointer →
    graph.objectHandle ctx kind pointer ≠ kSerialNullHandle
  strings : Set.InjOn ctx.stringHandle { str | graph.InternedString str }
  string_ne_null : ∀ str, graph.InternedString str → ctx.stringHandle str ≠ kSerialNullHandle

/-- The pools hold every reachable object once, with its record where its handle says. -/
structure Complete (ctx : SerializeContext) : Prop where
  mem_iff : ∀ kind pointer, pointer ∈ ctx.objects kind ↔ graph.Reachable kind pointer
  nodup : ∀ kind, (ctx.objects kind).Nodup
  length : ∀ kind, kind ≠ .kString → (ctx.serialized kind).length = (ctx.objects kind).length
  record : ∀ kind pointer, graph.Reachable kind pointer →
    ((ctx.serialized kind)[(graph.objectHandle ctx kind pointer).toNat - 1]?).map
        WireBuffer.wireBufferContents =
      some ((graph.fields kind pointer).flatMap
        (ObjectField.encode (graph.objectHandle ctx) ctx.stringHandle))

/-- The object that a reader has for an object of the graph. -/
def imageIn (ctx : SerializeContext) (read : DeserializeContext ObjectMemory)
    (kind : SerialKind) (pointer : Pointer) : Pointer :=
  (deserializeResolve read kind (graph.objectHandle ctx kind pointer)).1

/-- The objects that were read are a copy of the graph: one for each reachable object, with
its fields, where each reference goes to the copy of its target, or to nothing when the
target was not interned. Each string's handle gives its bytes and its length. -/
structure Isomorphic (ctx : SerializeContext) (read : DeserializeContext ObjectMemory) : Prop where
  injective : ∀ kind pointer otherKind other, graph.Reachable kind pointer →
    graph.Reachable otherKind other →
    graph.imageIn ctx read kind pointer = graph.imageIn ctx read otherKind other →
    kind = otherKind ∧ pointer = other
  surjective : ∀ kind, ∀ object ∈ read.objects kind, ∃ pointer, graph.Reachable kind pointer ∧
    graph.imageIn ctx read kind pointer = object
  null : ∀ kind pointer, ¬ graph.Internable kind pointer → graph.imageIn ctx read kind pointer = 0
  fields : ∀ kind pointer, graph.Reachable kind pointer → 0 < graph.imageIn ctx read kind pointer ∧
    read.memory[graph.imageIn ctx read kind pointer - 1]? =
      some ((graph.fields kind pointer).map (ObjectField.rename (graph.imageIn ctx read)))
  strings : ∀ str, graph.InternedString str →
    deserializeResolveString read (ctx.stringHandle str) = ((some (str ++ [0]), str.length), read)

/-- Serialising the graph is faithful: the drain terminates with distinct handles and a
complete set of records, and what a reader makes of the pools is isomorphic. -/
def Faithful : Prop :=
  ∃ fuel ctx, graph.serialize fuel = some (true, ctx) ∧ graph.DistinctHandles ctx ∧
    graph.Complete ctx ∧
    ∀ initialSize, ∃ out, writeAll ctx (wireBufferInitOwned initialSize) = (true, out) ∧
      ∃ read input, graph.readAll (wireBufferInitReader out.wireBufferContents) =
          ((true, read), input) ∧
        input.error = false ∧ read.error = false ∧ graph.Isomorphic ctx read

/-- Strings that `strcmp` does not tell apart are equal, and every pool is smaller than the
range of handles. -/
structure Separable : Prop where
  strings : ∀ first second, graph.InternedString first → graph.InternedString second →
    cString first = cString second → first = second
  fewStrings : { str | graph.InternedString str }.ncard < 2 ^ 32
  fewObjects : ∀ kind, { pointer | graph.Reachable kind pointer }.ncard < 2 ^ 32

end ObjectGraph

end DaveCC.Serialize
