import Mathlib.Data.BitVec

/-!
# Wire format primitives

The writers and readers of `wireformat.c`: varints, tags, fixed-width and
length-delimited fields on top of a byte buffer. A function that takes a `WireBuffer*`
is an action on the buffer's state. A reader returns its `out` value, or nothing when it
fails. An allocation that does not succeed aborts the program, so buffers are as large
as their contents need.
-/

namespace DaveCC.Serialize

abbrev Byte := BitVec 8

/-- `WireType`. The cast from a tag's low bits can also give one of the two codes that no
enumerator has. -/
inductive WireType where
  | varint | fixed64 | lengthDelimited | startGroup | endGroup | fixed32
  | unnamed (code : BitVec 64)
  deriving DecidableEq, Repr

namespace WireType

def code : WireType → BitVec 64
  | .varint => 0
  | .fixed64 => 1
  | .lengthDelimited => 2
  | .startGroup => 3
  | .endGroup => 4
  | .fixed32 => 5
  | .unnamed code => code

/-- The enumerator of a code. -/
def ofCode (code : BitVec 64) : WireType :=
  match code with
  | 0 => .varint
  | 1 => .fixed64
  | 2 => .lengthDelimited
  | 3 => .startGroup
  | 4 => .endGroup
  | 5 => .fixed32
  | code => .unnamed code

end WireType

def WIRE_MIN_SIZE : ℕ := 16
def WIRE_FIELD_SHIFT : ℕ := 3
def WIRE_TYPE_MASK : BitVec 64 := 0x7

/-- `WireBuffer`. The pointers `addr` and `end` are offsets from `start`, which is given
by the bytes there. -/
structure WireBuffer where
  start : List Byte
  addr : ℕ := 0
  limit : ℕ
  size : ℕ
  owned : Bool
  error : Bool := false
  deriving DecidableEq, Repr

def wireBufferInitOwned (initialSize : ℕ) : WireBuffer :=
  let size := if initialSize < WIRE_MIN_SIZE then WIRE_MIN_SIZE else initialSize
  { start := List.replicate size 0, limit := size, size := size, owned := true }

def wireBufferInitReader (data : List Byte) : WireBuffer :=
  { start := data, limit := data.length, size := data.length, owned := false }

namespace WireBuffer

def wireBufferSize (buf : WireBuffer) : ℕ :=
  buf.addr

/-- The `WireBufferSize` bytes at `WireBufferData`. -/
def wireBufferContents (buf : WireBuffer) : List Byte :=
  buf.start.take buf.wireBufferSize

def wireBufferEof (buf : WireBuffer) : Bool :=
  buf.limit ≤ buf.addr

def wireBufferRewind (buf : WireBuffer) : WireBuffer :=
  { buf with limit := if buf.owned then buf.addr else buf.limit, addr := 0 }

/-- Store a byte at the cursor and move past it. -/
def put (buf : WireBuffer) (byte : Byte) : WireBuffer :=
  { buf with start := buf.start.set buf.addr byte, addr := buf.addr + 1 }

/-- Move the cursor. -/
def advance (buf : WireBuffer) (length : ℕ) : WireBuffer :=
  { buf with addr := buf.addr + length }

end WireBuffer

def wireZigZag64 (value : BitVec 64) : BitVec 64 :=
  (value <<< 1) ^^^ -(value >>> 63)

def wireZagZig64 (value : BitVec 64) : BitVec 64 :=
  (value >>> 1) ^^^ -(value &&& 1)

theorem toNat_ushiftRight_lt {value : BitVec 64} (large : 0x80 ≤ value.toNat) :
    (value >>> 7).toNat < value.toNat := by
  rw [BitVec.toNat_ushiftRight, Nat.shiftRight_eq_div_pow]
  exact Nat.div_lt_self (Nat.lt_of_lt_of_le (by decide) large) (by decide)

def wireVarintSize (value : BitVec 64) : ℕ :=
  if 0x80 ≤ value.toNat then wireVarintSize (value >>> 7) + 1 else 1
termination_by value.toNat
decreasing_by exact toNat_ushiftRight_lt ‹_›

def wireMakeTag (fieldNumber : BitVec 32) (wireType : WireType) : BitVec 64 :=
  (fieldNumber.signExtend 64 <<< WIRE_FIELD_SHIFT) ||| wireType.code

/-- The bytes of a number in memory, least significant first. -/
def memoryBytes {width : ℕ} (count : ℕ) (value : BitVec width) : List Byte :=
  (List.range count).map fun index => (value >>> (8 * index)).setWidth 8

/-- The number in memory at some bytes. -/
def memoryValue (width : ℕ) (bytes : List Byte) : BitVec width :=
  bytes.foldr (fun byte value => value <<< 8 ||| byte.setWidth width) 0

/-! ## Writing -/

/-- The doubling loop of `WireHasSpaceFor`. The size it starts from is not zero. -/
def growSize (needed size : ℕ) : ℕ :=
  if 0 < size ∧ size < needed then growSize needed (size * 2) else size
termination_by needed - size

def wireHasSpaceFor (n : ℕ) : StateM WireBuffer Bool := fun buf =>
  if buf.error then (false, buf)
  else if buf.addr + n ≤ buf.limit then (true, buf)
  else if !buf.owned then (false, { buf with error := true })
  else
    let newSize := growSize (buf.addr + n) (if buf.size == 0 then WIRE_MIN_SIZE else buf.size)
    (true, { buf with
      start := buf.start ++ List.replicate (newSize - buf.size) 0
      limit := newSize
      size := newSize })

/-- The loop of `WireWriteRawVarint`. -/
def writeVarintLoop (buf : WireBuffer) (value : BitVec 64) : WireBuffer :=
  if value.toNat < 0x80 then buf.put (value.setWidth 8)
  else writeVarintLoop (buf.put ((value &&& 0x7f ||| 0x80).setWidth 8)) (value >>> 7)
termination_by value.toNat
decreasing_by exact toNat_ushiftRight_lt (Nat.le_of_not_lt ‹_›)

def wireWriteRawVarint (value : BitVec 64) : StateM WireBuffer Bool := do
  if !(← wireHasSpaceFor (wireVarintSize value)) then return false
  modify fun buf => writeVarintLoop buf value
  return true

def wireWriteRaw (data : List Byte) : StateM WireBuffer Bool := do
  if !(← wireHasSpaceFor data.length) then return false
  modify fun buf =>
    { buf with
      start := buf.start.take buf.addr ++ data ++ buf.start.drop (buf.addr + data.length)
      addr := buf.addr + data.length }
  return true

def wireWriteTag (fieldNumber : BitVec 32) (wireType : WireType) : StateM WireBuffer Bool :=
  wireWriteRawVarint (wireMakeTag fieldNumber wireType)

section Writers

variable (fieldNumber : BitVec 32)

def wireWriteVarint (value : BitVec 64) : StateM WireBuffer Bool := do
  if !(← wireWriteTag fieldNumber .varint) then return false
  wireWriteRawVarint value

def wireWriteSignedVarint (value : BitVec 64) : StateM WireBuffer Bool := do
  if !(← wireWriteTag fieldNumber .varint) then return false
  wireWriteRawVarint (wireZigZag64 value)

def wireWriteBool (value : Bool) : StateM WireBuffer Bool :=
  wireWriteVarint fieldNumber (if value then 1 else 0)

def wireWriteInt32 (value : BitVec 32) : StateM WireBuffer Bool :=
  wireWriteVarint fieldNumber (value.signExtend 64)

def wireWriteUint32 (value : BitVec 32) : StateM WireBuffer Bool :=
  wireWriteVarint fieldNumber (value.setWidth 64)

def wireWriteInt64 (value : BitVec 64) : StateM WireBuffer Bool :=
  wireWriteVarint fieldNumber value

def wireWriteUint64 (value : BitVec 64) : StateM WireBuffer Bool :=
  wireWriteVarint fieldNumber value

def wireWriteFixed32 (value : BitVec 32) : StateM WireBuffer Bool := do
  if !(← wireWriteTag fieldNumber .fixed32) then return false
  wireWriteRaw (memoryBytes 4 value)

def wireWriteFixed64 (value : BitVec 64) : StateM WireBuffer Bool := do
  if !(← wireWriteTag fieldNumber .fixed64) then return false
  wireWriteRaw (memoryBytes 8 value)

def wireWriteBytes (data : List Byte) : StateM WireBuffer Bool := do
  if !(← wireWriteTag fieldNumber .lengthDelimited) then return false
  if !(← wireWriteRawVarint (BitVec.ofNat 64 data.length)) then return false
  wireWriteRaw data

def wireWriteString (str : List Byte) : StateM WireBuffer Bool :=
  wireWriteBytes fieldNumber str

end Writers

def wireCheck (n : ℕ) : StateM WireBuffer Bool := fun buf =>
  if buf.error then (false, buf)
  else if buf.addr + n ≤ buf.limit then (true, buf)
  else (false, { buf with error := true })

/-- The loop of `WireReadRawVarint` with `left` of its ten iterations to go. -/
def readVarintLoop (shift : ℕ) (value : BitVec 64) : ℕ → StateM WireBuffer (Option (BitVec 64))
  | 0 => do
      modify fun buf => { buf with error := true }
      return none
  | left + 1 => do
      if !(← wireCheck 1) then return none
      let byte := ((← get).start.getD (← get).addr 0).setWidth 64
      modify fun buf => buf.advance 1
      let value := value ||| (byte &&& 0x7f) <<< shift
      if byte &&& 0x80 == 0 then return some value
      readVarintLoop (shift + 7) value left

def wireReadRawVarint : StateM WireBuffer (Option (BitVec 64)) :=
  readVarintLoop 0 0 10

def wireReadRaw (length : ℕ) : StateM WireBuffer (Option (List Byte)) := do
  if !(← wireCheck length) then return none
  let data := ((← get).start.drop (← get).addr).take length
  modify fun buf => buf.advance length
  return some data

def wireReadTag : StateM WireBuffer (Option (BitVec 32 × WireType)) := do
  let some tag ← wireReadRawVarint | return none
  return some ((tag >>> WIRE_FIELD_SHIFT).setWidth 32, .ofCode (tag &&& WIRE_TYPE_MASK))

def wireReadVarint : StateM WireBuffer (Option (BitVec 64)) :=
  wireReadRawVarint

def wireReadSignedVarint : StateM WireBuffer (Option (BitVec 64)) := do
  let some value ← wireReadRawVarint | return none
  return some (wireZagZig64 value)

def wireReadBool : StateM WireBuffer (Option Bool) := do
  let some value ← wireReadRawVarint | return none
  return some (value != 0)

def wireReadInt32 : StateM WireBuffer (Option (BitVec 32)) := do
  let some value ← wireReadRawVarint | return none
  return some (value.setWidth 32)

def wireReadUint32 : StateM WireBuffer (Option (BitVec 32)) := do
  let some value ← wireReadRawVarint | return none
  return some (value.setWidth 32)

def wireReadInt64 : StateM WireBuffer (Option (BitVec 64)) := do
  let some value ← wireReadRawVarint | return none
  return some value

def wireReadUint64 : StateM WireBuffer (Option (BitVec 64)) :=
  wireReadRawVarint

def wireReadFixed32 : StateM WireBuffer (Option (BitVec 32)) := do
  let some data ← wireReadRaw 4 | return none
  return some (memoryValue 32 data)

def wireReadFixed64 : StateM WireBuffer (Option (BitVec 64)) := do
  let some data ← wireReadRaw 8 | return none
  return some (memoryValue 64 data)

/-- `WireReadBytes`. The payload it points at is returned itself. -/
def wireReadBytes : StateM WireBuffer (Option (List Byte)) := do
  let some len ← wireReadRawVarint | return none
  if !(← wireCheck len.toNat) then return none
  let data := ((← get).start.drop (← get).addr).take len.toNat
  modify fun buf => buf.advance len.toNat
  return some data

def wireSkip (wireType : WireType) : StateM WireBuffer Bool := do
  match wireType with
  | .varint => return (← wireReadRawVarint).isSome
  | .fixed64 =>
    if !(← wireCheck 8) then return false
    modify fun buf => buf.advance 8
    return true
  | .lengthDelimited =>
    let some len ← wireReadRawVarint | return false
    if !(← wireCheck len.toNat) then return false
    modify fun buf => buf.advance len.toNat
    return true
  | .fixed32 =>
    if !(← wireCheck 4) then return false
    modify fun buf => buf.advance 4
    return true
  | .startGroup | .endGroup | .unnamed _ =>
    modify fun buf => { buf with error := true }
    return false

end DaveCC.Serialize
