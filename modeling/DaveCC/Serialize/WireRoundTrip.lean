import DaveCC.Arith.IntFormat
import DaveCC.Serialize.WireReader

/-!
# The wire format round trip

What is written can be read back. A writer appends the encoding of its field to the
contents of the buffer, whether or not the buffer grows. A reader whose unread bytes
start with an encoding returns the value and moves past exactly these bytes, and so does
skipping it.
-/

namespace DaveCC.Serialize

theorem varint_of_lt {value : BitVec 64} (small : value.toNat < 0x80) :
    varint value = [value.setWidth 8] := by
  rw [varint, if_pos small]

theorem varint_of_le {value : BitVec 64} (large : 0x80 ≤ value.toNat) :
    varint value = (value &&& 0x7f ||| 0x80).setWidth 8 :: varint (value >>> 7) := by
  rw [varint, if_neg (Nat.not_lt.mpr large)]

theorem wireVarintSize_eq (value : BitVec 64) : wireVarintSize value = (varint value).length := by
  induction value using varint.induct with
  | case1 value small =>
    rw [varint_of_lt small, wireVarintSize, if_neg (Nat.not_le.mpr small)]
    rfl
  | case2 value large ih =>
    have large := Nat.le_of_not_lt large
    rw [varint_of_le large, wireVarintSize, if_pos large, ih, List.length_cons]

section Groups

variable {mask flag : BitVec 64} (isMask : ∀ index, mask.getLsbD index = decide (index < 7))
  (isFlag : ∀ index, flag.getLsbD index = decide (index = 7)) (value : BitVec 64)

include isMask in
/-- A word is its low seven bits and the rest. -/
private theorem groups_eq : value &&& mask ||| (value >>> 7) <<< 7 = value := by
  apply BitVec.eq_of_getLsbD_eq
  intro index inside
  simp only [BitVec.getLsbD_or, BitVec.getLsbD_and, isMask, BitVec.getLsbD_shiftLeft,
    BitVec.getLsbD_ushiftRight, inside, decide_true, Bool.true_and]
  rcases Nat.lt_or_ge index 7 with low | high
  · simp [low]
  · simp [Nat.not_lt.mpr high, show 7 + (index - 7) = index by omega]

include isMask isFlag in
private theorem group_of_continued :
    ((value &&& mask ||| flag).setWidth 8).setWidth 64 &&& mask = value &&& mask := by
  apply BitVec.eq_of_getLsbD_eq
  intro index inside
  simp only [BitVec.getLsbD_or, BitVec.getLsbD_and, isMask, isFlag, BitVec.getLsbD_setWidth,
    inside, decide_true, Bool.true_and]
  rcases Nat.lt_or_ge index 7 with low | high
  · simp [low, show index < 8 by omega, show index ≠ 7 by omega]
  · simp [Nat.not_lt.mpr high]

include isFlag in
private theorem continues :
    ((value &&& mask ||| flag).setWidth 8).setWidth 64 &&& flag ≠ 0 := by
  intro zero
  have bit := congrArg (·.getLsbD 7) zero
  simp only [BitVec.getLsbD_and, BitVec.getLsbD_setWidth, BitVec.getLsbD_or, isFlag] at bit
  simp at bit

end Groups

private theorem lowGroup (index : ℕ) : (0x7f : BitVec 64).getLsbD index = decide (index < 7) := by
  have table : ∀ index : Fin 64,
      (0x7f : BitVec 64).getLsbD index = decide (index.val < 7) := by decide
  rcases Nat.lt_or_ge index 64 with inside | outside
  · exact table ⟨index, inside⟩
  · rw [BitVec.getLsbD_of_ge _ _ outside]
    exact (decide_eq_false (by omega)).symm

private theorem continuation (index : ℕ) :
    (0x80 : BitVec 64).getLsbD index = decide (index = 7) := by
  have table : ∀ index : Fin 64,
      (0x80 : BitVec 64).getLsbD index = decide (index.val = 7) := by decide
  rcases Nat.lt_or_ge index 64 with inside | outside
  · exact table ⟨index, inside⟩
  · rw [BitVec.getLsbD_of_ge _ _ outside]
    exact (decide_eq_false (by omega)).symm

private theorem setWidth_of_lt {value : BitVec 64} (small : value.toNat < 0x80) :
    (value.setWidth 8).setWidth 64 = value := by
  apply BitVec.eq_of_toNat_eq
  rw [BitVec.toNat_setWidth, BitVec.toNat_setWidth]
  omega

private theorem and_lowGroup_of_lt {value : BitVec 64} (small : value.toNat < 0x80) :
    value &&& 0x7f = value := by
  apply BitVec.eq_of_toNat_eq
  rw [BitVec.toNat_and, show (0x7f : BitVec 64).toNat = 2 ^ 7 - 1 from rfl,
    Nat.and_two_pow_sub_one_eq_mod]
  exact Nat.mod_eq_of_lt small

private theorem ends {value : BitVec 64} (small : value.toNat < 0x80) : value &&& 0x80 = 0 := by
  rw [← and_lowGroup_of_lt small, BitVec.and_assoc, show (0x7f &&& 0x80 : BitVec 64) = 0 by decide]
  exact BitVec.and_zero

namespace WireBuffer

/-- An owned buffer between two writes. -/
structure IsWriter (buf : WireBuffer) : Prop where
  owned : buf.owned = true
  noError : buf.error = false
  length : buf.start.length = buf.size
  limit : buf.limit = buf.size
  addr : buf.addr ≤ buf.size
  size : 0 < buf.size

theorem isWriter_initOwned (initialSize : ℕ) : (wireBufferInitOwned initialSize).IsWriter where
  owned := rfl
  noError := rfl
  length := List.length_replicate
  limit := rfl
  addr := Nat.zero_le _
  size := by
    rcases Nat.lt_or_ge initialSize WIRE_MIN_SIZE with small | large
    · rw [wireBufferInitOwned, if_pos small]
      decide
    · rw [wireBufferInitOwned, if_neg (Nat.not_lt.mpr large)]
      exact Nat.lt_of_lt_of_le (by decide) large

end WireBuffer

/-- The action succeeds on every writer and appends the bytes to its contents. -/
def Writes (action : StateM WireBuffer Bool) (bytes : List Byte) : Prop :=
  ∀ buf : WireBuffer, buf.IsWriter → ∃ next, action buf = (true, next) ∧ next.IsWriter ∧
    next.addr = buf.addr + bytes.length ∧
    next.wireBufferContents = buf.wireBufferContents ++ bytes

theorem run_bind {State Value Result : Type} {first : StateM State Value}
    {next : Value → StateM State Result} {state after : State} {value : Value}
    (runs : first state = (value, after)) : (first >>= next) state = next value after := by
  simp only [bind, StateT.bind, runs]

theorem Writes.bind {first second : StateM WireBuffer Bool} {front back : List Byte}
    (writesFirst : Writes first front) (writesSecond : Writes second back) :
    Writes
      (do
        if !(← first) then return false
        second)
      (front ++ back) := by
  intro buf writer
  obtain ⟨middle, runsFirst, middleWriter, middleAddr, middleContents⟩ := writesFirst buf writer
  obtain ⟨last, runsSecond, lastWriter, lastAddr, lastContents⟩ :=
    writesSecond middle middleWriter
  refine ⟨last, ?_, lastWriter, ?_, ?_⟩
  · rw [run_bind runsFirst]
    exact runsSecond
  · rw [lastAddr, middleAddr, List.length_append, Nat.add_assoc]
  · rw [lastContents, middleContents, List.append_assoc]

theorem le_growSize (needed size : ℕ) (positive : 0 < size) :
    needed ≤ growSize needed size ∧ size ≤ growSize needed size := by
  induction size using growSize.induct needed with
  | case1 size continues ih =>
    rw [growSize, if_pos continues]
    have ⟨enough, larger⟩ := ih (by omega)
    exact ⟨enough, by omega⟩
  | case2 size done =>
    rw [growSize, if_neg done]
    omega

open WireBuffer

/-- Making room leaves the bytes already written where they are. -/
theorem exists_wireHasSpaceFor {buf : WireBuffer} (writer : buf.IsWriter) (n : ℕ) :
    ∃ next, wireHasSpaceFor n buf = (true, next) ∧ next.IsWriter ∧ next.addr = buf.addr ∧
      next.wireBufferContents = buf.wireBufferContents ∧ next.addr + n ≤ next.size := by
  unfold wireHasSpaceFor
  rw [writer.noError, if_neg Bool.false_ne_true]
  split
  · rename_i fits
    exact ⟨buf, rfl, writer, rfl, rfl, by rw [← writer.limit]; exact fits⟩
  · rw [writer.owned]
    have nonempty : (buf.size == 0) = false := beq_false_of_ne (Nat.ne_of_gt writer.size)
    rw [nonempty, if_neg Bool.false_ne_true]
    have ⟨enough, larger⟩ := le_growSize (buf.addr + n) buf.size writer.size
    refine ⟨_, rfl, ?_, rfl, ?_, enough⟩
    · exact
        { owned := rfl
          noError := rfl
          length := by
            simp only [List.length_append, List.length_replicate, writer.length]
            omega
          limit := rfl
          addr := Nat.le_trans writer.addr larger
          size := Nat.lt_of_lt_of_le writer.size larger }
    · simp only [wireBufferContents, wireBufferSize]
      exact List.take_append_of_le_length (writer.length ▸ writer.addr)

variable {byte : Byte}

theorem contents_put {buf : WireBuffer} (room : buf.addr < buf.start.length) :
    (buf.put byte).wireBufferContents = buf.wireBufferContents ++ [byte] := by
  simp only [wireBufferContents, wireBufferSize, WireBuffer.put]
  rw [List.take_add_one, List.take_set_of_le (Nat.le_refl _), List.getElem?_set_self room]
  rfl

theorem WireBuffer.IsWriter.put {buf : WireBuffer} (writer : buf.IsWriter) (byte : Byte)
    (inside : buf.addr < buf.size) : (buf.put byte).IsWriter where
  owned := writer.owned
  noError := writer.noError
  length := by
    rw [WireBuffer.put, List.length_set]
    exact writer.length
  limit := writer.limit
  addr := inside
  size := writer.size

/-- The loop stores the encoding of the value. -/
theorem writeVarintLoop_eq {buf : WireBuffer} {value : BitVec 64}
    (writer : buf.IsWriter) (room : buf.addr + (varint value).length ≤ buf.size) :
    (writeVarintLoop buf value).IsWriter ∧
      (writeVarintLoop buf value).addr = buf.addr + (varint value).length ∧
      (writeVarintLoop buf value).wireBufferContents =
        buf.wireBufferContents ++ varint value := by
  induction value using varint.induct generalizing buf with
  | case1 value small =>
    rw [varint_of_lt small, List.length_singleton] at room
    rw [writeVarintLoop, if_pos small, varint_of_lt small]
    exact ⟨writer.put _ room, rfl, contents_put (writer.length ▸ room)⟩
  | case2 value large ih =>
    have atLeast := Nat.le_of_not_lt large
    rw [varint_of_le atLeast, List.length_cons] at room
    rw [writeVarintLoop, if_neg large, varint_of_le atLeast, List.length_cons]
    have inside : buf.addr < buf.size := by omega
    have addr (byte : Byte) : (buf.put byte).addr = buf.addr + 1 := rfl
    have size (byte : Byte) : (buf.put byte).size = buf.size := rfl
    have ⟨nextWriter, nextAddr, nextContents⟩ :=
      ih (writer.put ((value &&& 0x7f ||| 0x80).setWidth 8) inside) (by rw [addr, size]; omega)
    refine ⟨nextWriter, ?_, ?_⟩
    · rw [nextAddr, addr]
      omega
    · rw [nextContents, contents_put (writer.length ▸ inside), List.append_assoc]
      rfl

theorem writes_wireWriteRawVarint (value : BitVec 64) :
    Writes (wireWriteRawVarint value) (varint value) := by
  intro buf writer
  obtain ⟨next, makes, nextWriter, sameAddr, sameContents, room⟩ :=
    exists_wireHasSpaceFor writer (wireVarintSize value)
  rw [wireVarintSize_eq] at room
  have ⟨lastWriter, lastAddr, lastContents⟩ := writeVarintLoop_eq nextWriter room
  refine ⟨writeVarintLoop next value, ?_, lastWriter, ?_, ?_⟩
  · unfold wireWriteRawVarint
    rw [run_bind makes]
    rfl
  · rw [lastAddr, sameAddr]
  · rw [lastContents, sameContents]

theorem writes_wireWriteRaw (data : List Byte) : Writes (wireWriteRaw data) data := by
  intro buf writer
  obtain ⟨next, makes, nextWriter, sameAddr, sameContents, room⟩ :=
    exists_wireHasSpaceFor writer data.length
  have inside : next.addr ≤ next.start.length := nextWriter.length ▸ nextWriter.addr
  have runs : wireWriteRaw data buf =
      (true, { next with
        start := next.start.take next.addr ++ data ++
          next.start.drop (next.addr + data.length)
        addr := next.addr + data.length }) := by
    unfold wireWriteRaw
    rw [run_bind makes]
    rfl
  refine ⟨_, runs, ?_, ?_, ?_⟩
  · exact
      { owned := nextWriter.owned
        noError := nextWriter.noError
        length := by
          simp only [List.length_append, List.length_take, List.length_drop,
            nextWriter.length, Nat.min_eq_left nextWriter.addr]
          omega
        limit := nextWriter.limit
        addr := room
        size := nextWriter.size }
  · rw [← sameAddr]
  · rw [← sameContents]
    have front : (next.start.take next.addr ++ data).length = next.addr + data.length := by
      rw [List.length_append, List.length_take, Nat.min_eq_left inside]
    exact List.take_left' front

/-! ## Fields -/

theorem writes_wireWriteBytes (fieldNumber : BitVec 32) (data : List Byte) :
    Writes (wireWriteBytes fieldNumber data)
      (tagBytes fieldNumber .lengthDelimited ++ lengthDelimited data) :=
  (writes_wireWriteRawVarint _).bind ((writes_wireWriteRawVarint _).bind (writes_wireWriteRaw data))

theorem writes_value (fieldNumber : BitVec 32) (value : WireValue) :
    Writes (value.write fieldNumber)
      (tagBytes fieldNumber value.kind.wireType ++ value.payload) := by
  have tag (wireType : WireType) :
      Writes (wireWriteTag fieldNumber wireType) (tagBytes fieldNumber wireType) :=
    writes_wireWriteRawVarint _
  cases value with
  | bytes data => exact writes_wireWriteBytes fieldNumber data
  | string str => exact writes_wireWriteBytes fieldNumber str
  | fixed32 value => exact (tag _).bind (writes_wireWriteRaw _)
  | fixed64 value => exact (tag _).bind (writes_wireWriteRaw _)
  | varint value | signedVarint value | bool value | int32 value | uint32 value | int64 value
  | uint64 value => exact (tag _).bind (writes_wireWriteRawVarint _)

theorem contents_initOwned (initialSize : ℕ) :
    (wireBufferInitOwned initialSize).wireBufferContents = [] :=
  List.take_zero

theorem writes_fields (initialSize : ℕ) (fields : WireFields) :
    Writes (fields.write initialSize) fields.encode := by
  induction fields with
  | done =>
    intro buf writer
    exact ⟨buf, rfl, writer, rfl, (List.append_nil _).symm⟩
  | scalar fieldNumber value rest writesRest =>
    exact (writes_value fieldNumber value).bind writesRest
  | message fieldNumber body rest writesBody writesRest =>
    obtain ⟨nested, runs, nestedWriter, _, nestedContents⟩ :=
      writesBody _ (isWriter_initOwned initialSize)
    have writesBytes := writes_wireWriteBytes fieldNumber nested.wireBufferContents
    rw [nestedContents] at writesBytes
    unfold WireFields.write
    simp only [StateT.run, runs, Bool.not_true, Bool.false_eq_true, if_false, nestedContents]
    exact writesBytes.bind writesRest

/-- The bytes from the cursor to the end of a buffer without an error. -/
structure WireBuffer.Unread (buf : WireBuffer) (bytes : List Byte) : Prop where
  noError : buf.error = false
  addr : buf.addr ≤ buf.limit
  limit : buf.limit ≤ buf.start.length
  bytes : (buf.start.take buf.limit).drop buf.addr = bytes

namespace WireBuffer.Unread

variable {buf : WireBuffer} {front back : List Byte}

theorem length_eq (unread : buf.Unread back) : buf.addr + back.length = buf.limit := by
  have addr := unread.addr
  rw [← unread.bytes, List.length_drop, List.length_take, Nat.min_eq_left unread.limit]
  omega

theorem fits (unread : buf.Unread (front ++ back)) : buf.addr + front.length ≤ buf.limit := by
  have length := unread.length_eq
  rw [List.length_append] at length
  omega

theorem take_eq (unread : buf.Unread (front ++ back)) :
    (buf.start.drop buf.addr).take front.length = front := by
  have unreadBytes := congrArg (List.take front.length) unread.bytes
  rw [List.take_left, List.drop_take, List.take_take,
    Nat.min_eq_left (Nat.le_sub_of_add_le (Nat.add_comm _ _ ▸ unread.fits))] at unreadBytes
  exact unreadBytes

theorem advance (unread : buf.Unread (front ++ back)) :
    (buf.advance front.length).Unread back where
  noError := unread.noError
  addr := unread.fits
  limit := unread.limit
  bytes := by
    have unreadBytes := congrArg (List.drop front.length) unread.bytes
    rw [List.drop_drop, List.drop_left] at unreadBytes
    exact unreadBytes

theorem check (unread : buf.Unread (front ++ back)) : wireCheck front.length buf = (true, buf) := by
  rw [wireCheck, unread.noError, if_neg Bool.false_ne_true, if_pos unread.fits]

end WireBuffer.Unread

/-- The action returns the value from every buffer whose unread bytes start with the
given ones, and moves past these. -/
def Consumes {Value : Type} (action : StateM WireBuffer Value) (bytes : List Byte)
    (value : Value) : Prop :=
  ∀ (buf : WireBuffer) (rest : List Byte), buf.Unread (bytes ++ rest) →
    action buf = (value, buf.advance bytes.length)

theorem WireBuffer.advance_advance (buf : WireBuffer) (first second : ℕ) :
    (buf.advance first).advance second = buf.advance (first + second) := by
  rw [advance, advance, advance, Nat.add_assoc]

section Rules

variable {Value Result : Type} {value : Value} {result : Result} {front back bytes : List Byte}

theorem consumes_return : Consumes (pure value) [] value :=
  fun _ _ _ => rfl

variable {next : Value → StateM WireBuffer Result}

theorem Consumes.bind {first : StateM WireBuffer Value} (consumesFirst : Consumes first front value)
    (consumesNext : Consumes (next value) back result) :
    Consumes (first >>= next) (front ++ back) result := by
  intro buf rest unread
  rw [List.append_assoc] at unread
  rw [run_bind (consumesFirst buf _ unread), consumesNext _ _ unread.advance,
    advance_advance, List.length_append]

/-- The rule for an action that only turns the value into its result. -/
theorem Consumes.map {action : StateM WireBuffer Value} (consumes : Consumes action bytes value)
    (returns : next value = pure result) : Consumes (action >>= next) bytes result := by
  have whole := consumes.bind (returns ▸ consumes_return : Consumes (next value) [] result)
  rw [List.append_nil] at whole
  exact whole

end Rules

theorem readVarintLoop_succ {buf : WireBuffer} {rest : List Byte}
    (unread : buf.Unread (byte :: rest)) (shift : ℕ) (value : BitVec 64) (left : ℕ) :
    readVarintLoop shift value (left + 1) buf =
      if byte.setWidth 64 &&& 0x80 == 0 then
        (some (value ||| (byte.setWidth 64 &&& 0x7f) <<< shift), buf.advance 1)
      else
        readVarintLoop (shift + 7) (value ||| (byte.setWidth 64 &&& 0x7f) <<< shift) left
          (buf.advance 1) := by
  have split : buf.Unread ([byte] ++ rest) := unread
  have atCursor : buf.start.getD buf.addr 0 = byte := by
    have head := congrArg List.head? split.take_eq
    rw [List.head?_take, List.head?_drop] at head
    simp only [List.length_singleton, Nat.one_ne_zero, if_false, List.head?_cons] at head
    rw [List.getD_eq_getElem?_getD, head]
    rfl
  have checked : wireCheck 1 buf = (true, buf) := split.check
  have reads : (get : StateM WireBuffer WireBuffer) buf = (buf, buf) := rfl
  have moves : (modify fun buf => buf.advance 1 : StateM WireBuffer Unit) buf =
      ((), buf.advance 1) := rfl
  rw [readVarintLoop, run_bind checked, ← atCursor]
  simp only [Bool.not_true, Bool.false_eq_true, if_false]
  rw [run_bind reads, run_bind reads, run_bind moves]
  cases (buf.start.getD buf.addr 0).setWidth 64 &&& 0x80 == 0 <;> rfl

/-- Reading the groups of a value adds them in at their places. -/
theorem consumes_readVarintLoop (left shift : ℕ) (start value : BitVec 64)
    (fits : value.toNat < 128 ^ (left + 1)) :
    Consumes (readVarintLoop shift start (left + 1)) (varint value)
      (some (start ||| value <<< shift)) := by
  induction left generalizing shift start value with
  | zero =>
    intro buf rest unread
    rw [varint_of_lt fits] at unread ⊢
    rw [readVarintLoop_succ unread, setWidth_of_lt fits, ends fits, and_lowGroup_of_lt fits]
    rfl
  | succ left ih =>
    intro buf rest unread
    rcases Nat.lt_or_ge value.toNat 0x80 with small | large
    · rw [varint_of_lt small] at unread ⊢
      rw [readVarintLoop_succ unread, setWidth_of_lt small, ends small, and_lowGroup_of_lt small]
      rfl
    · rw [varint_of_le large] at unread ⊢
      have shifted : (value >>> 7).toNat < 128 ^ (left + 1) := by
        rw [BitVec.toNat_ushiftRight, Nat.shiftRight_eq_div_pow]
        apply Nat.div_lt_of_lt_mul
        rw [Nat.pow_succ, Nat.mul_comm] at fits
        exact fits
      have groups : (value &&& 0x7f) <<< shift ||| (value >>> 7) <<< (shift + 7) =
          value <<< shift := by
        conv => rhs; rw [← groups_eq lowGroup value]
        rw [BitVec.shiftLeft_or_distrib, ← BitVec.shiftLeft_add, Nat.add_comm 7]
      rw [readVarintLoop_succ unread,
        if_neg (by rw [beq_iff_eq]; exact continues continuation value),
        group_of_continued lowGroup continuation]
      have split : buf.Unread
          ([(value &&& 0x7f ||| 0x80).setWidth 8] ++ (varint (value >>> 7) ++ rest)) := unread
      have next : (buf.advance 1).Unread (varint (value >>> 7) ++ rest) := split.advance
      rw [ih (shift + 7) _ (value >>> 7) shifted _ rest next, BitVec.or_assoc, groups,
        advance_advance, List.length_cons, Nat.add_comm]

theorem consumes_wireReadRawVarint (value : BitVec 64) :
    Consumes wireReadRawVarint (varint value) (some value) := by
  have consumes := consumes_readVarintLoop 9 0 0 value (Nat.lt_of_lt_of_le value.isLt (by decide))
  have start : (0 : BitVec 64) ||| value = value := BitVec.zero_or
  rw [BitVec.shiftLeft_zero, start] at consumes
  exact consumes

variable {fieldNumber : BitVec 32}

theorem toNat_wireMakeTag (valid : ValidFieldNumber fieldNumber) (wireType : WireType)
    (named : wireType.code.toNat < 8) :
    (wireMakeTag fieldNumber wireType).toNat = 8 * fieldNumber.toNat + wireType.code.toNat := by
  have small := valid.2
  have positive : fieldNumber.msb = false := by
    rw [BitVec.msb_eq_false_iff_two_mul_lt]
    omega
  rw [wireMakeTag, BitVec.signExtend_eq_setWidth_of_msb_false positive, BitVec.toNat_or,
    BitVec.toNat_shiftLeft, BitVec.toNat_setWidth_of_le (by decide), WIRE_FIELD_SHIFT,
    Nat.shiftLeft_eq, Nat.mod_eq_of_lt (by omega), Nat.mul_comm]
  exact (Nat.two_pow_add_eq_or_of_lt (i := 3) named _).symm

theorem consumes_wireReadTag (valid : ValidFieldNumber fieldNumber) (wireType : WireType)
    (named : wireType.code.toNat < 8) (enumerator : WireType.ofCode wireType.code = wireType) :
    Consumes wireReadTag (tagBytes fieldNumber wireType) (some (fieldNumber, wireType)) := by
  have tag := toNat_wireMakeTag valid wireType named
  have number : (wireMakeTag fieldNumber wireType >>> WIRE_FIELD_SHIFT).setWidth 32 =
      fieldNumber := by
    apply BitVec.eq_of_toNat_eq
    rw [BitVec.toNat_setWidth, BitVec.toNat_ushiftRight, tag, WIRE_FIELD_SHIFT,
      Nat.shiftRight_eq_div_pow]
    omega
  have code : wireMakeTag fieldNumber wireType &&& WIRE_TYPE_MASK = wireType.code := by
    apply BitVec.eq_of_toNat_eq
    rw [BitVec.toNat_and, tag, show WIRE_TYPE_MASK.toNat = 2 ^ 3 - 1 from rfl,
      Nat.and_two_pow_sub_one_eq_mod]
    omega
  apply (consumes_wireReadRawVarint _).map
  dsimp only
  rw [number, code, enumerator]

theorem consumes_kind_tag (valid : ValidFieldNumber fieldNumber) (kind : WireKind) :
    Consumes wireReadTag (tagBytes fieldNumber kind.wireType)
      (some (fieldNumber, kind.wireType)) := by
  cases kind <;> exact consumes_wireReadTag valid _ (by decide) rfl

/-! ## Values -/

/-- A flag as a word, negated: all of its bits are the flag. -/
private theorem getLsbD_neg_flag (flag : Bool) {index : ℕ} (inside : index < 64) :
    (-(if flag then 1 else 0 : BitVec 64)).getLsbD index = flag := by
  cases flag with
  | false => exact BitVec.getLsbD_zero
  | true =>
    have ones : (-(if true then 1 else 0) : BitVec 64) = BitVec.allOnes 64 := by decide
    rw [ones, BitVec.getLsbD_allOnes, decide_eq_true inside]

private theorem ushiftRight_63 (value : BitVec 64) : value >>> 63 = if value.msb then 1 else 0 := by
  apply BitVec.eq_of_toNat_eq
  rw [BitVec.toNat_ushiftRight, Nat.shiftRight_eq_div_pow]
  cases sign : value.msb with
  | true =>
    have high := BitVec.msb_eq_true_iff_two_mul_ge.mp sign
    rw [if_pos rfl, show (1 : BitVec 64).toNat = 1 from rfl]
    omega
  | false =>
    have low := BitVec.msb_eq_false_iff_two_mul_lt.mp sign
    rw [if_neg Bool.false_ne_true, show (0 : BitVec 64).toNat = 0 from rfl]
    omega

private theorem and_one (value : BitVec 64) : value &&& 1 = if value.getLsbD 0 then 1 else 0 := by
  rw [show (1 : BitVec 64) = BitVec.twoPow 64 0 from rfl, BitVec.and_twoPow]
  rfl

theorem wireZagZig64_wireZigZag64 (value : BitVec 64) :
    wireZagZig64 (wireZigZag64 value) = value := by
  have zigzag {index : ℕ} (inside : index < 64) : (wireZigZag64 value).getLsbD index =
      Bool.xor (!decide (index < 1) && value.getLsbD (index - 1)) value.msb := by
    rw [wireZigZag64, BitVec.getLsbD_xor, BitVec.getLsbD_shiftLeft, ushiftRight_63,
      getLsbD_neg_flag _ inside, decide_eq_true inside, Bool.true_and]
  apply BitVec.eq_of_getLsbD_eq
  intro index inside
  rw [wireZagZig64, BitVec.getLsbD_xor, and_one, getLsbD_neg_flag _ inside,
    zigzag (by decide), BitVec.getLsbD_ushiftRight]
  rcases Nat.lt_or_ge (1 + index) 64 with next | last
  · rw [zigzag next]
    simp
  · rw [BitVec.getLsbD_of_ge _ _ last, show index = 63 by omega, BitVec.msb_eq_getLsbD_last]
    simp
variable {width : ℕ}

theorem memoryBytes_succ (count : ℕ) (value : BitVec width) :
    memoryBytes (count + 1) value = value.setWidth 8 :: memoryBytes count (value >>> 8) := by
  unfold memoryBytes
  rw [List.range_succ_eq_map, List.map_cons, List.map_map]
  congr 1
  apply List.map_congr_left
  intro index _
  rw [Function.comp_apply, ← BitVec.shiftRight_add, Nat.mul_succ, Nat.add_comm]

theorem getLsbD_memoryValue (count : ℕ) (value : BitVec width) (index : ℕ) :
    (memoryValue width (memoryBytes count value)).getLsbD index =
      (decide (index < 8 * count) && value.getLsbD index) := by
  induction count generalizing value index with
  | zero => simp [memoryBytes, memoryValue]
  | succ count ih =>
    have unfolded : memoryValue width (memoryBytes (count + 1) value) =
        memoryValue width (memoryBytes count (value >>> 8)) <<< 8 |||
          (value.setWidth 8).setWidth width := by
      rw [memoryBytes_succ]
      rfl
    rw [unfolded, BitVec.getLsbD_or, BitVec.getLsbD_shiftLeft, ih, BitVec.getLsbD_ushiftRight,
      BitVec.getLsbD_setWidth, BitVec.getLsbD_setWidth]
    rcases Nat.lt_or_ge index width with inside | outside
    · rcases Nat.lt_or_ge index 8 with low | high
      · simp [inside, low, show index < 8 * (count + 1) by omega]
      · simp [inside, Nat.not_lt.mpr high, show 8 + (index - 8) = index by omega,
          show index - 8 < 8 * count ↔ index < 8 * (count + 1) by omega]
    · simp [BitVec.getLsbD_of_ge _ _ outside, Nat.not_lt.mpr outside]

theorem memoryValue_memoryBytes {count : ℕ} (value : BitVec width) (whole : width ≤ 8 * count) :
    memoryValue width (memoryBytes count value) = value := by
  apply BitVec.eq_of_getLsbD_eq
  intro index inside
  rw [getLsbD_memoryValue, decide_eq_true (by omega), Bool.true_and]

theorem consumes_wireReadRaw (data : List Byte) :
    Consumes (wireReadRaw data.length) data (some data) := by
  intro buf rest unread
  have reads : (get : StateM WireBuffer WireBuffer) buf = (buf, buf) := rfl
  unfold wireReadRaw
  rw [run_bind unread.check]
  simp only [Bool.not_true, Bool.false_eq_true, if_false]
  rw [run_bind reads, run_bind reads, unread.take_eq]
  rfl

variable {data : List Byte}

theorem consumes_wireReadBytes (fits : data.length < 2 ^ 64) :
    Consumes wireReadBytes (lengthDelimited data) (some data) := by
  have length : (BitVec.ofNat 64 data.length).toNat = data.length := Nat.mod_eq_of_lt fits
  have reads := consumes_wireReadRaw data
  rw [← length] at reads
  exact (consumes_wireReadRawVarint _).bind reads

/-- A reader of one varint. -/
theorem consumes_varint {Value : Type} {value : Value} (word : BitVec 64)
    {read : BitVec 64 → Value} (equal : read word = value) :
    Consumes
      (do
        let some found ← wireReadRawVarint | return none
        return some (read found))
      (varint word) (some value) := by
  subst equal
  exact (consumes_wireReadRawVarint word).map rfl

theorem consumes_read {value : WireValue} (fits : value.Fits) :
    Consumes value.kind.read value.payload (some value) := by
  cases value with
  | varint value => exact (consumes_wireReadRawVarint value).map rfl
  | uint64 value => exact (consumes_wireReadRawVarint value).map rfl
  | int64 value => exact (consumes_varint value (id_eq value)).map rfl
  | signedVarint value =>
    exact (consumes_varint _ (wireZagZig64_wireZigZag64 value)).map rfl
  | bool value =>
    have equal : ((if value then 1 else 0 : BitVec 64) != 0) = value := by
      cases value <;> rfl
    have read : Consumes wireReadBool _ (some value) := consumes_varint _ equal
    exact read.map rfl
  | int32 value =>
    let format : Arith.IntFormat := ⟨32, false, by decide, by decide⟩
    exact (consumes_varint _ (format.read_extend value)).map rfl
  | uint32 value =>
    let format : Arith.IntFormat := ⟨32, true, by decide, by decide⟩
    exact (consumes_varint _ (format.read_extend value)).map rfl
  | fixed32 value =>
    have raw := consumes_wireReadRaw (memoryBytes 4 value)
    have same : memoryValue 32 (memoryBytes 4 value) = value :=
      memoryValue_memoryBytes value (by decide)
    have read : Consumes wireReadFixed32 (memoryBytes 4 value) (some value) :=
      raw.map (congrArg (fun found => pure (some found)) same)
    exact read.map rfl
  | fixed64 value =>
    have raw := consumes_wireReadRaw (memoryBytes 8 value)
    have same : memoryValue 64 (memoryBytes 8 value) = value :=
      memoryValue_memoryBytes value (by decide)
    have read : Consumes wireReadFixed64 (memoryBytes 8 value) (some value) :=
      raw.map (congrArg (fun found => pure (some found)) same)
    exact read.map rfl
  | bytes data => exact (consumes_wireReadBytes fits).map rfl
  | string str => exact (consumes_wireReadBytes fits).map rfl

theorem consumes_advance (data : List Byte) :
    Consumes
      (do
        if !(← wireCheck data.length) then return false
        modify fun buf => buf.advance data.length
        return true)
      data true := by
  intro buf rest unread
  rw [run_bind unread.check]
  rfl

theorem consumes_skip_lengthDelimited (fits : data.length < 2 ^ 64) :
    Consumes (wireSkip .lengthDelimited) (lengthDelimited data) true := by
  have length : (BitVec.ofNat 64 data.length).toNat = data.length := Nat.mod_eq_of_lt fits
  have advances := consumes_advance data
  rw [← length] at advances
  exact (consumes_wireReadRawVarint _).bind advances

/-- Skipping a value consumes what its reader consumes. -/
theorem consumes_skip {value : WireValue} (fits : value.Fits) :
    Consumes (wireSkip value.kind.wireType) value.payload true := by
  cases value with
  | bytes data => exact consumes_skip_lengthDelimited fits
  | string str => exact consumes_skip_lengthDelimited fits
  | fixed32 value =>
    have advances := consumes_advance (memoryBytes 4 value)
    exact advances
  | fixed64 value =>
    have advances := consumes_advance (memoryBytes 8 value)
    exact advances
  | varint value | signedVarint value | bool value | int32 value | uint32 value | int64 value
  | uint64 value => exact (consumes_wireReadRawVarint _).map rfl

theorem unread_initReader (data : List Byte) : (wireBufferInitReader data).Unread data where
  noError := rfl
  addr := Nat.zero_le _
  limit := Nat.le_refl _
  bytes := List.take_length

theorem Consumes.to_end {Value : Type} {action : StateM WireBuffer Value} {bytes : List Byte}
    {value : Value} {buf : WireBuffer} (consumes : Consumes action bytes value)
    (unread : buf.Unread bytes) :
    action buf = (value, buf.advance bytes.length) ∧ (buf.advance bytes.length).error = false ∧
      (buf.advance bytes.length).wireBufferEof = true := by
  have unread : buf.Unread (bytes ++ []) := by
    rw [List.append_nil]
    exact unread
  refine ⟨consumes buf [] unread, unread.noError, ?_⟩
  rw [List.append_nil] at unread
  exact decide_eq_true (Nat.le_of_eq unread.length_eq.symm)

/-- A plan reads a message to its end, whichever fields it skips. -/
theorem consumes_plan {plan : WirePlan} {fields received : WireFields}
    (reads : plan.Reads fields received) (wellFormed : fields.WellFormed) :
    Consumes plan.read fields.encode (some received) := by
  induction reads with
  | done => exact consumes_return
  | scalar fieldNumber value reads consumesRest =>
    have ⟨valid, fits, rest⟩ := wellFormed
    have consumesTag := consumes_kind_tag valid value.kind
    rw [WireFields.encode, List.append_assoc]
    apply consumesTag.bind
    simp only [bne_self_eq_false, Bool.false_eq_true, if_false]
    apply (consumes_read fits).bind
    exact (consumesRest rest).map rfl
  | @message body _ inner innerReceived _ _ fieldNumber readsBody reads consumesBody consumesRest =>
    have ⟨valid, fits, innerFormed, rest⟩ := wellFormed
    have consumesTag := consumes_wireReadTag valid .lengthDelimited (by decide) rfl
    have ⟨runs, noError, atEnd⟩ :=
      (consumesBody innerFormed).to_end (unread_initReader inner.encode)
    rw [WireFields.encode, List.append_assoc]
    apply consumesTag.bind
    apply (consumes_wireReadBytes fits).bind
    simp only [StateT.run, runs, noError, atEnd, Bool.not_true, Bool.or_self,
      Bool.false_eq_true, if_false]
    exact (consumesRest rest).map rfl
  | skipScalar fieldNumber value reads consumesRest =>
    have ⟨valid, fits, rest⟩ := wellFormed
    have consumesTag := consumes_kind_tag valid value.kind
    rw [WireFields.encode, List.append_assoc]
    apply consumesTag.bind
    exact (consumes_skip fits).bind (consumesRest rest)
  | skipMessage fieldNumber inner reads consumesRest =>
    have ⟨valid, fits, _, rest⟩ := wellFormed
    have consumesTag := consumes_wireReadTag valid .lengthDelimited (by decide) rfl
    rw [WireFields.encode, List.append_assoc]
    apply consumesTag.bind
    exact (consumes_skip_lengthDelimited fits).bind (consumesRest rest)

def WireFields.plan : WireFields → WirePlan
  | .done => .done
  | .scalar _ value rest => .scalar value.kind rest.plan
  | .message _ body rest => .message body.plan rest.plan

theorem unread_rewind {buf : WireBuffer} (writer : buf.IsWriter) :
    buf.wireBufferRewind.Unread buf.wireBufferContents where
  noError := writer.noError
  addr := Nat.zero_le _
  limit := by
    simp only [wireBufferRewind, writer.owned, if_true, writer.length]
    exact writer.addr
  bytes := by
    simp [wireBufferRewind, writer.owned, wireBufferContents, wireBufferSize]

/-- Writing a message and reading it back: the buffer rewound, or a reader over its
contents, yields the fields the plan does not skip and ends at the end without an error.
A skipped value leaves the buffer where reading it does. A varint takes as many bytes as
`WireVarintSize` says, and making room keeps the bytes already written. -/
theorem wire_round_trip (message : WireMessage) (outerSize nestedSize : ℕ) {plan : WirePlan}
    {received : WireFields} (reads : plan.Reads message.fields received) :
    ∃ buf, message.fields.write nestedSize (wireBufferInitOwned outerSize) = (true, buf) ∧
      buf.error = false ∧
      (∀ input, input = buf.wireBufferRewind ∨ input = wireBufferInitReader buf.wireBufferContents →
        ∃ final, plan.read input = (some received, final) ∧ final.wireBufferEof = true ∧
          final.error = false ∧ final.addr = buf.wireBufferSize) ∧
      (∀ (value : WireValue) (input : WireBuffer) (rest : List Byte), value.Fits →
        input.Unread (value.payload ++ rest) →
        ∃ final, value.kind.read input = (some value, final) ∧
          wireSkip value.kind.wireType input = (true, final)) ∧
      (∀ value, ∃ next, wireWriteRawVarint value buf = (true, next) ∧
        next.wireBufferSize = buf.wireBufferSize + wireVarintSize value ∧
        buf.wireBufferContents <+: next.wireBufferContents) ∧
      (∀ n, ∃ next, wireHasSpaceFor n buf = (true, next) ∧
        next.wireBufferSize = buf.wireBufferSize ∧
        next.wireBufferContents = buf.wireBufferContents) := by
  obtain ⟨buf, runs, writer, addr, contents⟩ := writes_fields nestedSize message.fields _
    (isWriter_initOwned outerSize)
  rw [contents_initOwned, List.nil_append] at contents
  have size : buf.wireBufferSize = message.fields.encode.length := by
    rw [wireBufferSize, addr]
    exact Nat.zero_add _
  refine ⟨buf, runs, writer.noError, ?_, ?_, ?_, ?_⟩
  · intro input isInput
    have unread : input.Unread message.fields.encode ∧ input.addr = 0 := by
      rw [← contents]
      rcases isInput with rfl | rfl
      · exact ⟨unread_rewind writer, rfl⟩
      · exact ⟨unread_initReader _, rfl⟩
    have ⟨runsPlan, noError, atEnd⟩ := (consumes_plan reads message.wellFormed).to_end unread.1
    refine ⟨_, runsPlan, atEnd, noError, ?_⟩
    rw [size, WireBuffer.advance, unread.2]
    exact Nat.zero_add _
  · intro value input rest fits unread
    exact ⟨_, consumes_read fits input rest unread, consumes_skip fits input rest unread⟩
  · intro value
    obtain ⟨next, runsVarint, _, nextAddr, nextContents⟩ :=
      writes_wireWriteRawVarint value buf writer
    refine ⟨next, runsVarint, ?_, ?_⟩
    · rw [wireVarintSize_eq]
      exact nextAddr
    · rw [nextContents]
      exact List.prefix_append _ _
  · intro n
    obtain ⟨next, makes, _, sameAddr, sameContents, _⟩ := exists_wireHasSpaceFor writer n
    exact ⟨next, makes, sameAddr, sameContents⟩

/-- A number, an empty message and a string. -/
def sampleMessage : WireMessage where
  fields := .scalar 1 (.int32 (-7)) (.message 2 .done (.scalar 3 (.string [104, 105]) .done))
  wellFormed := by
    refine ⟨⟨by decide, by decide⟩, trivial, ⟨by decide, by decide⟩, ?_, trivial,
      ⟨by decide, by decide⟩, ?_, trivial⟩
    · exact Nat.two_pow_pos 64
    · show 2 < 2 ^ 64
      decide

/-- Reading the number and the string and skipping the message between them. -/
theorem wire_round_trip_sample :
    ∃ buf final, sampleMessage.fields.write 16 (wireBufferInitOwned 16) = (true, buf) ∧
      (WirePlan.scalar .int32 (.skip (.scalar .string .done))).read
        (wireBufferInitReader buf.wireBufferContents) =
          (some (.scalar 1 (.int32 (-7)) (.scalar 3 (.string [104, 105]) .done)), final) ∧
      final.wireBufferEof = true := by
  obtain ⟨buf, runs, _, readBack, _⟩ := wire_round_trip sampleMessage 16 16
    (.scalar 1 (.int32 (-7)) (.skipMessage 2 .done (.scalar 3 (.string [104, 105]) .done)))
  obtain ⟨final, reads, atEnd, _⟩ := readBack _ (Or.inr rfl)
  exact ⟨buf, final, runs, reads, atEnd⟩

end DaveCC.Serialize
