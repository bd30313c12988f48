import DaveCC.Serialize.Wireformat

/-!
# Messages on the wire

A message is a sequence of tagged fields, some of which are messages themselves. Its
encoding is a list of bytes: what the writers are for. A plan says how a reader goes
through a message: field by field with the reader of its kind, or skipping it.
-/

namespace DaveCC.Serialize

/-- The value of a field, as the writer for its type takes it. -/
inductive WireValue where
  | varint (value : BitVec 64)
  | signedVarint (value : BitVec 64)
  | bool (value : Bool)
  | int32 (value : BitVec 32)
  | uint32 (value : BitVec 32)
  | int64 (value : BitVec 64)
  | uint64 (value : BitVec 64)
  | fixed32 (value : BitVec 32)
  | fixed64 (value : BitVec 64)
  | bytes (data : List Byte)
  | string (str : List Byte)
  deriving DecidableEq, Repr

/-- The type of a field: which writer and which reader it takes. -/
inductive WireKind where
  | varint | signedVarint | bool | int32 | uint32 | int64 | uint64 | fixed32 | fixed64
  | bytes | string
  deriving DecidableEq, Repr

def WireValue.kind : WireValue → WireKind
  | .varint _ => .varint
  | .signedVarint _ => .signedVarint
  | .bool _ => .bool
  | .int32 _ => .int32
  | .uint32 _ => .uint32
  | .int64 _ => .int64
  | .uint64 _ => .uint64
  | .fixed32 _ => .fixed32
  | .fixed64 _ => .fixed64
  | .bytes _ => .bytes
  | .string _ => .string

/-- The wire type in the tag of a field of the kind. -/
def WireKind.wireType : WireKind → WireType
  | .fixed32 => .fixed32
  | .fixed64 => .fixed64
  | .bytes | .string => .lengthDelimited
  | _ => .varint

/-- The length of a payload is a `size_t`. -/
def WireValue.Fits : WireValue → Prop
  | .bytes data | .string data => data.length < 2 ^ 64
  | _ => True

/-- The writer of a value. -/
def WireValue.write (fieldNumber : BitVec 32) : WireValue → StateM WireBuffer Bool
  | .varint value => wireWriteVarint fieldNumber value
  | .signedVarint value => wireWriteSignedVarint fieldNumber value
  | .bool value => wireWriteBool fieldNumber value
  | .int32 value => wireWriteInt32 fieldNumber value
  | .uint32 value => wireWriteUint32 fieldNumber value
  | .int64 value => wireWriteInt64 fieldNumber value
  | .uint64 value => wireWriteUint64 fieldNumber value
  | .fixed32 value => wireWriteFixed32 fieldNumber value
  | .fixed64 value => wireWriteFixed64 fieldNumber value
  | .bytes data => wireWriteBytes fieldNumber data
  | .string str => wireWriteString fieldNumber str

/-- The reader of a kind, after the tag. -/
def WireKind.read : WireKind → StateM WireBuffer (Option WireValue)
  | .varint => return (← wireReadVarint).map .varint
  | .signedVarint => return (← wireReadSignedVarint).map .signedVarint
  | .bool => return (← wireReadBool).map .bool
  | .int32 => return (← wireReadInt32).map .int32
  | .uint32 => return (← wireReadUint32).map .uint32
  | .int64 => return (← wireReadInt64).map .int64
  | .uint64 => return (← wireReadUint64).map .uint64
  | .fixed32 => return (← wireReadFixed32).map .fixed32
  | .fixed64 => return (← wireReadFixed64).map .fixed64
  | .bytes => return (← wireReadBytes).map .bytes
  | .string => return (← wireReadBytes).map .string

/-- The base-128 encoding of a word: seven bits in a byte, the lowest first, with the top
bit set in every byte but the last. -/
def varint (value : BitVec 64) : List Byte :=
  if value.toNat < 0x80 then [value.setWidth 8]
  else (value &&& 0x7f ||| 0x80).setWidth 8 :: varint (value >>> 7)
termination_by value.toNat
decreasing_by exact toNat_ushiftRight_lt (Nat.le_of_not_lt ‹_›)

def tagBytes (fieldNumber : BitVec 32) (wireType : WireType) : List Byte :=
  varint (wireMakeTag fieldNumber wireType)

def lengthDelimited (data : List Byte) : List Byte :=
  varint (BitVec.ofNat 64 data.length) ++ data

/-- The bytes of a value after its tag. -/
def WireValue.payload : WireValue → List Byte
  | .varint value | .int64 value | .uint64 value => Serialize.varint value
  | .signedVarint value => Serialize.varint (wireZigZag64 value)
  | .bool value => Serialize.varint (if value then 1 else 0)
  | .int32 value => Serialize.varint (value.signExtend 64)
  | .uint32 value => Serialize.varint (value.setWidth 64)
  | .fixed32 value => memoryBytes 4 value
  | .fixed64 value => memoryBytes 8 value
  | .bytes data | .string data => lengthDelimited data

/-- A sequence of fields. A field that is a message holds one in its bytes. -/
inductive WireFields where
  | done
  | scalar (fieldNumber : BitVec 32) (value : WireValue) (rest : WireFields)
  | message (fieldNumber : BitVec 32) (body rest : WireFields)
  deriving DecidableEq, Repr

def ValidFieldNumber (fieldNumber : BitVec 32) : Prop :=
  1 ≤ fieldNumber.toNat ∧ fieldNumber.toNat ≤ 2 ^ 29 - 1

namespace WireFields

def encode : WireFields → List Byte
  | .done => []
  | .scalar fieldNumber value rest =>
    tagBytes fieldNumber value.kind.wireType ++ value.payload ++ rest.encode
  | .message fieldNumber body rest =>
    tagBytes fieldNumber .lengthDelimited ++ lengthDelimited body.encode ++ rest.encode

/-- Every field number is one of the format, and every length is a `size_t`. -/
def WellFormed : WireFields → Prop
  | .done => True
  | .scalar fieldNumber value rest =>
    ValidFieldNumber fieldNumber ∧ value.Fits ∧ rest.WellFormed
  | .message fieldNumber body rest =>
    ValidFieldNumber fieldNumber ∧ body.encode.length < 2 ^ 64 ∧ body.WellFormed ∧ rest.WellFormed

/-- Write the fields in order. A message is written to a buffer of its own first. -/
def write (initialSize : ℕ) : WireFields → StateM WireBuffer Bool
  | .done => return true
  | .scalar fieldNumber value rest => do
      if !(← value.write fieldNumber) then return false
      rest.write initialSize
  | .message fieldNumber body rest => do
      let (written, nested) := (body.write initialSize).run (wireBufferInitOwned initialSize)
      if !written then return false
      if !(← wireWriteBytes fieldNumber nested.wireBufferContents) then return false
      rest.write initialSize

end WireFields

/-- A message that its buffers can hold. -/
structure WireMessage where
  fields : WireFields
  wellFormed : fields.WellFormed

/-! ## Plans -/

/-- How a reader goes through a message. -/
inductive WirePlan where
  | done
  | scalar (kind : WireKind) (rest : WirePlan)
  | message (body rest : WirePlan)
  | skip (rest : WirePlan)
  deriving DecidableEq, Repr

namespace WirePlan

/-- Read a message: each field's tag, then the value of its kind, or nothing. A nested
message is read from a reader over its bytes, to its end. -/
def read : WirePlan → StateM WireBuffer (Option WireFields)
  | .done => return some .done
  | .scalar kind rest => do
      let some (fieldNumber, wireType) ← wireReadTag | return none
      if wireType != kind.wireType then return none
      let some value ← kind.read | return none
      let some fields ← rest.read | return none
      return some (.scalar fieldNumber value fields)
  | .message body rest => do
      let some (fieldNumber, wireType) ← wireReadTag | return none
      if wireType != .lengthDelimited then return none
      let some data ← wireReadBytes | return none
      let (some fields, nested) := body.read.run (wireBufferInitReader data) | return none
      if nested.error || !nested.wireBufferEof then return none
      let some others ← rest.read | return none
      return some (.message fieldNumber fields others)
  | .skip rest => do
      let some (_, wireType) ← wireReadTag | return none
      if !(← wireSkip wireType) then return none
      rest.read

/-- The plan goes through the fields and yields those it does not skip. -/
inductive Reads : WirePlan → WireFields → WireFields → Prop where
  | done : Reads .done .done .done
  | scalar {rest : WirePlan} {fields received : WireFields} (fieldNumber : BitVec 32)
      (value : WireValue) (reads : Reads rest fields received) :
      Reads (.scalar value.kind rest) (.scalar fieldNumber value fields)
        (.scalar fieldNumber value received)
  | message {body rest : WirePlan} {inner innerReceived fields received : WireFields}
      (fieldNumber : BitVec 32) (readsBody : Reads body inner innerReceived)
      (reads : Reads rest fields received) :
      Reads (.message body rest) (.message fieldNumber inner fields)
        (.message fieldNumber innerReceived received)
  | skipScalar {rest : WirePlan} {fields received : WireFields} (fieldNumber : BitVec 32)
      (value : WireValue) (reads : Reads rest fields received) :
      Reads (.skip rest) (.scalar fieldNumber value fields) received
  | skipMessage {rest : WirePlan} {fields received : WireFields} (fieldNumber : BitVec 32)
      (inner : WireFields) (reads : Reads rest fields received) :
      Reads (.skip rest) (.message fieldNumber inner fields) received

end WirePlan

end DaveCC.Serialize

/-!
## Readers in the address space

The readers of `wireformat.c` over pointers. An address has 64 bits, so the sum that a
bounds check compares can wrap around. A reader keeps the addresses whose bytes it has
read, and a call is one read or skip.
-/

namespace DaveCC.Serialize.Addressed

abbrev Address := BitVec 64

/-- A `WireBuffer` that reads, with the addresses of the bytes read so far. -/
structure WireBuffer where
  start : Address
  addr : Address
  limit : Address
  error : Bool := false
  touched : List Address := []
  deriving DecidableEq, Repr

def wireBufferInitReader (data : Address) (size : BitVec 64) : WireBuffer :=
  { start := data, addr := data, limit := data + size }

namespace WireBuffer

/-- Move the cursor. -/
def advance (buf : WireBuffer) (length : BitVec 64) : WireBuffer :=
  { buf with addr := buf.addr + length }

def fail (buf : WireBuffer) : WireBuffer :=
  { buf with error := true }

/-- The addresses of the next bytes. -/
def next (buf : WireBuffer) (length : ℕ) : List Address :=
  (List.range length).map fun offset => buf.addr + BitVec.ofNat 64 offset

/-- Read the next bytes and move past them. -/
def take (buf : WireBuffer) (length : BitVec 64) : WireBuffer :=
  { buf.advance length with touched := buf.touched ++ buf.next length.toNat }

end WireBuffer

def wireCheck (n : BitVec 64) : StateM WireBuffer Bool := fun buf =>
  if buf.error then (false, buf)
  else if buf.addr + n ≤ buf.limit then (true, buf)
  else (false, buf.fail)

variable (memory : Address → Byte)

/-- The loop of `WireReadRawVarint` with `left` of its ten iterations to go. -/
def readVarintLoop (shift : ℕ) (value : BitVec 64) : ℕ → StateM WireBuffer (Option (BitVec 64))
  | 0 => do
      modify fun buf => buf.fail
      return none
  | left + 1 => do
      if !(← wireCheck 1) then return none
      let byte := (memory (← get).addr).setWidth 64
      modify fun buf => buf.take 1
      let value := value ||| (byte &&& 0x7f) <<< shift
      if byte &&& 0x80 == 0 then return some value
      readVarintLoop (shift + 7) value left

def wireReadRawVarint : StateM WireBuffer (Option (BitVec 64)) :=
  readVarintLoop memory 0 0 10

def wireReadRaw (length : BitVec 64) : StateM WireBuffer (Option (List Byte)) := do
  if !(← wireCheck length) then return none
  let data := ((← get).next length.toNat).map memory
  modify fun buf => buf.take length
  return some data

def wireReadTag : StateM WireBuffer (Option (BitVec 32 × WireType)) := do
  let some tag ← wireReadRawVarint memory | return none
  return some ((tag >>> WIRE_FIELD_SHIFT).setWidth 32, .ofCode (tag &&& WIRE_TYPE_MASK))

def wireReadVarint : StateM WireBuffer (Option (BitVec 64)) :=
  wireReadRawVarint memory

def wireReadSignedVarint : StateM WireBuffer (Option (BitVec 64)) := do
  let some value ← wireReadRawVarint memory | return none
  return some (wireZagZig64 value)

def wireReadBool : StateM WireBuffer (Option Bool) := do
  let some value ← wireReadRawVarint memory | return none
  return some (value != 0)

def wireReadInt32 : StateM WireBuffer (Option (BitVec 32)) := do
  let some value ← wireReadRawVarint memory | return none
  return some (value.setWidth 32)

def wireReadUint32 : StateM WireBuffer (Option (BitVec 32)) := do
  let some value ← wireReadRawVarint memory | return none
  return some (value.setWidth 32)

def wireReadInt64 : StateM WireBuffer (Option (BitVec 64)) := do
  let some value ← wireReadRawVarint memory | return none
  return some value

def wireReadUint64 : StateM WireBuffer (Option (BitVec 64)) :=
  wireReadRawVarint memory

def wireReadFixed32 : StateM WireBuffer (Option (BitVec 32)) := do
  let some data ← wireReadRaw memory 4 | return none
  return some (memoryValue 32 data)

def wireReadFixed64 : StateM WireBuffer (Option (BitVec 64)) := do
  let some data ← wireReadRaw memory 8 | return none
  return some (memoryValue 64 data)

/-- `WireReadDouble`, which gives the bits of the number. -/
def wireReadDouble : StateM WireBuffer (Option (BitVec 64)) := do
  let some bits ← wireReadFixed64 memory | return none
  return some bits

/-- `WireReadFloat`, which gives the bits of the number. -/
def wireReadFloat : StateM WireBuffer (Option (BitVec 32)) := do
  let some bits ← wireReadFixed32 memory | return none
  return some bits

/-- `WireReadBytes`: where the payload is, and its length. -/
def wireReadBytes : StateM WireBuffer (Option (Address × BitVec 64)) := do
  let some len ← wireReadRawVarint memory | return none
  if !(← wireCheck len) then return none
  let data := (← get).addr
  modify fun buf => buf.advance len
  return some (data, len)

def wireSkip (wireType : WireType) : StateM WireBuffer Bool := do
  match wireType with
  | .varint => return (← wireReadRawVarint memory).isSome
  | .fixed64 =>
    if !(← wireCheck 8) then return false
    modify fun buf => buf.advance 8
    return true
  | .lengthDelimited =>
    let some len ← wireReadRawVarint memory | return false
    if !(← wireCheck len) then return false
    modify fun buf => buf.advance len
    return true
  | .fixed32 =>
    if !(← wireCheck 4) then return false
    modify fun buf => buf.advance 4
    return true
  | .startGroup | .endGroup | .unnamed _ =>
    modify fun buf => buf.fail
    return false

/-- One call of a function that reads or skips. -/
inductive Call where
  | rawVarint | raw (length : BitVec 64) | tag | varint | signedVarint | bool | int32 | uint32
  | int64 | uint64 | fixed32 | fixed64 | double | float | bytes | skip (wireType : WireType)
  deriving DecidableEq, Repr

/-- Whether a call succeeds, and the buffer after it. -/
def Call.run : Call → StateM WireBuffer Bool
  | .rawVarint => Option.isSome <$> wireReadRawVarint memory
  | .raw length => Option.isSome <$> wireReadRaw memory length
  | .tag => Option.isSome <$> wireReadTag memory
  | .varint => Option.isSome <$> wireReadVarint memory
  | .signedVarint => Option.isSome <$> wireReadSignedVarint memory
  | .bool => Option.isSome <$> wireReadBool memory
  | .int32 => Option.isSome <$> wireReadInt32 memory
  | .uint32 => Option.isSome <$> wireReadUint32 memory
  | .int64 => Option.isSome <$> wireReadInt64 memory
  | .uint64 => Option.isSome <$> wireReadUint64 memory
  | .fixed32 => Option.isSome <$> wireReadFixed32 memory
  | .fixed64 => Option.isSome <$> wireReadFixed64 memory
  | .double => Option.isSome <$> wireReadDouble memory
  | .float => Option.isSome <$> wireReadFloat memory
  | .bytes => Option.isSome <$> wireReadBytes memory
  | .skip wireType => wireSkip memory wireType

/-- The buffer after some calls. -/
def runCalls (calls : List Call) (buf : WireBuffer) : WireBuffer :=
  calls.foldl (fun buf call => (call.run memory buf).2) buf

end DaveCC.Serialize.Addressed
