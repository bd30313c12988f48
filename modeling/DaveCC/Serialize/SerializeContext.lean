import DaveCC.Container.SortedMap
import DaveCC.Loop.While
import DaveCC.Serialize.Wireformat

/-!
# Graph serialisation

The framework of `serialize.c`. The writing side gives every object of a kind, and every
string, a handle, and drains the objects into records; the reading side allocates an
object for each record and fills it in a second pass. The kinds' callbacks are in a
registry. A function that takes a context and a buffer is an action on the buffer that
returns the context.
-/

namespace DaveCC.Serialize

open Container (SortedMap)
open Loop (runWhile)

inductive SerialKind where
  | kString | kType | kSymbol | kStruct | kEnum | kStructMember | kNamespace | kAST | kIRNode
  deriving DecidableEq, Repr

/-- The kinds in the order of the enumeration, up to `kSerialKindCount`. -/
def SerialKind.all : List SerialKind :=
  [.kString, .kType, .kSymbol, .kStruct, .kEnum, .kStructMember, .kNamespace, .kAST, .kIRNode]

/-- An address. `NULL` is zero. -/
abbrev Pointer := ℕ

abbrev SerialHandle := BitVec 32

def kSerialNullHandle : SerialHandle := 0

/-- What `strcmp` sees of a string: the bytes before the first NUL. -/
def cString (str : List Byte) : List Byte :=
  str.takeWhile (· != 0)

def strcmp (first second : List Byte) : Ordering :=
  compare (cString first) (cString second)

structure SerializeContext where
  handleMaps : SerialKind → SortedMap Pointer SerialHandle := fun _ => {}
  objects : SerialKind → List Pointer := fun _ => []
  serialized : SerialKind → List WireBuffer := fun _ => []
  processed : SerialKind → ℕ := fun _ => 0
  stringMap : SortedMap (List Byte) SerialHandle := {}
  stringPool : List (List Byte) := []
  stringLens : List ℕ := []
  writingLtoIr : Bool := false
  error : Bool := false

/-- `DeserializeContext`, with the memory that the objects are allocated in. A blob is the
bytes that its pointer and its length give. -/
structure DeserializeContext (Memory : Type) where
  objects : SerialKind → List Pointer := fun _ => []
  blobs : SerialKind → List (List Byte) := fun _ => []
  stringPool : List (List Byte) := []
  stringLens : List ℕ := []
  error : Bool := false
  memory : Memory

structure SerialKindVtable (Memory : Type) where
  write : Option (Pointer → SerializeContext → StateM WireBuffer (Bool × SerializeContext))
  alloc : Option (List Byte → DeserializeContext Memory → Pointer × DeserializeContext Memory)
  read : Option (Pointer → DeserializeContext Memory →
    StateM WireBuffer (Bool × DeserializeContext Memory))
  canIntern : Option (Pointer → Bool)

namespace SerializeContext

variable (ctx : SerializeContext)

/-- Append an object to its pool and enter its handle into the map. -/
def addObject (kind : SerialKind) (pointer : Pointer) (handle : SerialHandle) :
    SerializeContext :=
  { ctx with
    objects := Function.update ctx.objects kind (ctx.objects kind ++ [pointer])
    handleMaps := Function.update ctx.handleMaps kind
      ((ctx.handleMaps kind).insert compare pointer handle) }

@[simp] theorem addObject_objects_self (kind : SerialKind) (pointer : Pointer)
    (handle : SerialHandle) :
    (ctx.addObject kind pointer handle).objects kind = ctx.objects kind ++ [pointer] :=
  Function.update_self ..

@[simp] theorem addObject_handleMaps_self (kind : SerialKind) (pointer : Pointer)
    (handle : SerialHandle) :
    (ctx.addObject kind pointer handle).handleMaps kind =
      (ctx.handleMaps kind).insert compare pointer handle :=
  Function.update_self ..

variable {kind other : SerialKind}

theorem addObject_objects_of_ne (ne : other ≠ kind) (pointer : Pointer) (handle : SerialHandle) :
    (ctx.addObject kind pointer handle).objects other = ctx.objects other :=
  Function.update_of_ne ne ..

theorem addObject_handleMaps_of_ne (ne : other ≠ kind) (pointer : Pointer) (handle : SerialHandle) :
    (ctx.addObject kind pointer handle).handleMaps other = ctx.handleMaps other :=
  Function.update_of_ne ne ..

/-- Append the copy of a string to the pool and enter its handle into the map. -/
def addString (copy : List Byte) (len : ℕ) (handle : SerialHandle) : SerializeContext :=
  { ctx with
    stringPool := ctx.stringPool ++ [copy]
    stringLens := ctx.stringLens ++ [len]
    stringMap := ctx.stringMap.insert strcmp copy handle }

end SerializeContext

def serializeInternStringN (ctx : SerializeContext) (str : Option (List Byte)) :
    SerialHandle × SerializeContext :=
  match str with
  | none => (kSerialNullHandle, ctx)
  | some str =>
    let copy := str ++ [0]
    let found := (ctx.stringMap.find strcmp copy).getD 0
    if found != 0 then (found, ctx)
    else
      let handle := BitVec.ofNat 32 (ctx.stringPool.length + 1)
      (handle, ctx.addString copy str.length handle)

/-- `SerializeIntern`, given the `can_intern` callbacks of the registered kinds. -/
def serializeIntern (canIntern : SerialKind → Option (Pointer → Bool))
    (ctx : SerializeContext) (kind : SerialKind) (pointer : Pointer) :
    SerialHandle × SerializeContext :=
  if pointer == 0 then (kSerialNullHandle, ctx)
  else if ctx.writingLtoIr && (kind == .kAST || kind == .kNamespace) then
    (kSerialNullHandle, ctx)
  else if (canIntern kind).any (fun canIntern => !canIntern pointer) then
    (kSerialNullHandle, ctx)
  else
    let found := ((ctx.handleMaps kind).find compare pointer).getD 0
    if found != 0 then (found, ctx)
    else
      let handle := BitVec.ofNat 32 ((ctx.objects kind).length + 1)
      (handle, ctx.addObject kind pointer handle)

section Drain

variable {Memory : Type} (registry : SerialKind → Option (SerialKindVtable Memory))

/-- One iteration of the inner loop of `SerializeContextDrain`. -/
def drainObject (kind : SerialKind) (ctx : SerializeContext) : SerializeContext :=
  let index := ctx.processed kind
  let ctx := { ctx with processed := Function.update ctx.processed kind (index + 1) }
  let object := (ctx.objects kind).getD index 0
  let buf := wireBufferInitOwned 32
  let ((written, ctx), buf) :=
    match (registry kind).bind (·.write) with
    | none => ((false, ctx), buf)
    | some write => write object ctx buf
  { ctx with
    error := ctx.error || !written
    serialized := Function.update ctx.serialized kind (ctx.serialized kind ++ [buf]) }

/-- The inner loop of `SerializeContextDrain`, which notes its progress. -/
def drainPool (fuel : ℕ) (kind : SerialKind) :
    Bool × SerializeContext → Option (Bool × SerializeContext) :=
  runWhile (fun (_, ctx) => ctx.processed kind < (ctx.objects kind).length)
    (fun (_, ctx) => some (true, drainObject registry kind ctx)) fuel

/-- One pass over the kinds. Strings carry no fields. -/
def drainPass (fuel : ℕ) (ctx : SerializeContext) : Option (Bool × SerializeContext) :=
  SerialKind.all.foldlM
    (fun state kind => if kind = .kString then some state else drainPool registry fuel kind state)
    (false, ctx)

/-- `SerializeContextDrain`, when it returns within the fuel. -/
def serializeContextDrain (fuel : ℕ) (ctx : SerializeContext) :
    Option (Bool × SerializeContext) := do
  let (_, ctx) ← runWhile (fun (progress, ctx) => progress && !ctx.error)
    (fun (_, ctx) => drainPass registry fuel ctx) fuel (true, ctx)
  return (!ctx.error, ctx)

end Drain

/-! ## Writing the pools -/

/-- The loop of `SerializeWritePool`. -/
def writeBlobs : List WireBuffer → StateM WireBuffer Bool
  | [] => return true
  | blob :: rest => do
      if !(← wireWriteRawVarint (BitVec.ofNat 64 blob.wireBufferSize)) then return false
      if !(← wireWriteRaw blob.wireBufferContents) then return false
      writeBlobs rest

def serializeWritePool (ctx : SerializeContext) (kind : SerialKind) : StateM WireBuffer Bool := do
  if !(← wireWriteRawVarint (BitVec.ofNat 64 (ctx.serialized kind).length)) then return false
  writeBlobs (ctx.serialized kind)

/-- The loop of `SerializeWriteStringPool`, over the strings and their lengths. -/
def writeStrings : List (List Byte × ℕ) → StateM WireBuffer Bool
  | [] => return true
  | (str, len) :: rest => do
      if !(← wireWriteRawVarint (BitVec.ofNat 64 len)) then return false
      if !(← wireWriteRaw (str.take len)) then return false
      writeStrings rest

def serializeWriteStringPool (ctx : SerializeContext) : StateM WireBuffer Bool := do
  if !(← wireWriteRawVarint (BitVec.ofNat 64 ctx.stringPool.length)) then return false
  writeStrings (ctx.stringPool.zip ctx.stringLens)

section Read

variable {Memory : Type}

def deserializeResolve (ctx : DeserializeContext Memory) (kind : SerialKind)
    (handle : SerialHandle) : Pointer × DeserializeContext Memory :=
  if handle == kSerialNullHandle then (0, ctx)
  else
    let index := handle.toNat - 1
    match (ctx.objects kind)[index]? with
    | none => (0, { ctx with error := true })
    | some object => (object, ctx)

/-- `DeserializeResolveString`, with the length it stores. -/
def deserializeResolveString (ctx : DeserializeContext Memory) (handle : SerialHandle) :
    (Option (List Byte) × ℕ) × DeserializeContext Memory :=
  if handle == kSerialNullHandle then ((none, 0), ctx)
  else
    let index := handle.toNat - 1
    match ctx.stringPool[index]? with
    | none => ((none, 0), { ctx with error := true })
    | some str => ((some str, ctx.stringLens.getD index 0), ctx)

variable (registry : SerialKind → Option (SerialKindVtable Memory))

/-- The loop of `SerializeReadPool`, with `count` records to go. -/
def readPoolLoop (kind : SerialKind) (ctx : DeserializeContext Memory) :
    ℕ → StateM WireBuffer (Bool × DeserializeContext Memory)
  | 0 => return (true, ctx)
  | count + 1 => do
      let some blob ← wireReadBytes | return (false, { ctx with error := true })
      match (registry kind).bind (·.alloc) with
      | none => return (false, { ctx with error := true })
      | some alloc =>
        let (object, ctx) := alloc blob ctx
        readPoolLoop kind
          { ctx with
            objects := Function.update ctx.objects kind (ctx.objects kind ++ [object])
            blobs := Function.update ctx.blobs kind (ctx.blobs kind ++ [blob]) }
          count

def serializeReadPool (ctx : DeserializeContext Memory) (kind : SerialKind) :
    StateM WireBuffer (Bool × DeserializeContext Memory) := do
  let some count ← wireReadRawVarint | return (false, { ctx with error := true })
  readPoolLoop registry kind ctx count.toNat

/-- The loop of `SerializeReadStringPool`, with `count` strings to go. -/
def readStringsLoop (ctx : DeserializeContext Memory) :
    ℕ → StateM WireBuffer (Bool × DeserializeContext Memory)
  | 0 => return (true, ctx)
  | count + 1 => do
      let some data ← wireReadBytes | return (false, { ctx with error := true })
      readStringsLoop
        { ctx with
          stringPool := ctx.stringPool ++ [data ++ [0]]
          stringLens := ctx.stringLens ++ [data.length] }
        count

def serializeReadStringPool (ctx : DeserializeContext Memory) :
    StateM WireBuffer (Bool × DeserializeContext Memory) := do
  let some count ← wireReadRawVarint | return (false, { ctx with error := true })
  readStringsLoop ctx count.toNat

/-- One iteration of the inner loop of `DeserializeContextResolve`. -/
def resolveObject (kind : SerialKind) (ctx : DeserializeContext Memory) (index : ℕ) :
    DeserializeContext Memory :=
  if ctx.error then ctx
  else
    let object := (ctx.objects kind).getD index 0
    let blob := (ctx.blobs kind).getD index []
    match (registry kind).bind (·.read) with
    | none => { ctx with error := true }
    | some read =>
      let ((isRead, ctx), _) := read object ctx (wireBufferInitReader blob)
      { ctx with error := ctx.error || !isRead }

/-- The inner loop of `DeserializeContextResolve`. -/
def resolvePool (ctx : DeserializeContext Memory) (kind : SerialKind) :
    DeserializeContext Memory :=
  if kind = .kString then ctx
  else (List.range (ctx.objects kind).length).foldl (resolveObject registry kind) ctx

def deserializeContextResolve (ctx : DeserializeContext Memory) :
    Bool × DeserializeContext Memory :=
  let ctx := SerialKind.all.foldl (resolvePool registry) ctx
  (!ctx.error, ctx)

end Read

end DaveCC.Serialize
