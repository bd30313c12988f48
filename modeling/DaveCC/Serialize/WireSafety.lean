import DaveCC.Serialize.WireRoundTrip

/-!
# Reading hostile input

A reader stays inside its buffer as long as no sum in a bounds check wraps around and no
varint is longer than its 64 bits. What a call asks for is stated on the unread bytes,
with the value of a varint as an unbounded number.
-/

namespace DaveCC.Serialize.Addressed

/-- The bytes from the cursor to the end. -/
def WireBuffer.unread (memory : Address → Byte) (buf : WireBuffer) : List Byte :=
  (buf.next (buf.limit.toNat - buf.addr.toNat)).map memory

/-- The value of the varint at the front and the bytes after it. -/
def decodeVarint : List Byte → Option (ℕ × List Byte)
  | [] => none
  | byte :: rest =>
    if byte.toNat < 128 then some (byte.toNat, rest)
    else (decodeVarint rest).map fun decoded =>
      (byte.toNat - 128 + 128 * decoded.1, decoded.2)

/-- The cursor is between the ends, and only bytes between them have been read. -/
structure WireBuffer.Bounded (buf : WireBuffer) : Prop where
  start_le : buf.start ≤ buf.addr
  addr_le : buf.addr ≤ buf.limit
  touched : ∀ address ∈ buf.touched, buf.start ≤ address ∧ address < buf.limit

/-- What a call asks of the buffer: a number, to copy or to pass some bytes, a payload
behind its length, or nothing it could have. -/
inductive Request where
  | number | copy (length : BitVec 64) | pass (length : BitVec 64) | payload | refused

def Call.request : Call → Request
  | .rawVarint | .tag | .varint | .signedVarint | .bool | .int32 | .uint32 | .int64 | .uint64
  | .skip .varint => .number
  | .raw length => .copy length
  | .fixed32 | .float => .copy 4
  | .fixed64 | .double => .copy 8
  | .skip .fixed32 => .pass 4
  | .skip .fixed64 => .pass 8
  | .bytes | .skip .lengthDelimited => .payload
  | .skip .startGroup | .skip .endGroup | .skip (.unnamed _) => .refused

/-- The length that a request declares, and the bytes that remain there. -/
def Request.declared (unread : List Byte) : Request → Option (ℕ × ℕ)
  | .copy length | .pass length => some (length.toNat, unread.length)
  | .payload => (decodeVarint unread).map fun decoded => (decoded.1, decoded.2.length)
  | .number | .refused => none

def Request.varint (unread : List Byte) : Request → Option ℕ
  | .number | .payload => (decodeVarint unread).map Prod.fst
  | .copy _ | .pass _ | .refused => none

section Safety

variable (memory : Address → Byte)

/-- A call is safe: it does nothing once there is an error, stays inside the buffer, never
moves backwards, and refuses lengths and varints that are too large. -/
structure Call.Safe (call : Call) (buf : WireBuffer) : Prop where
  sticky : buf.error = true → call.run memory buf = (false, buf)
  same : (call.run memory buf).2.start = buf.start ∧ (call.run memory buf).2.limit = buf.limit
  bounded : (call.run memory buf).2.Bounded
  forward : buf.addr ≤ (call.run memory buf).2.addr
  declared : ∀ length left, call.request.declared (buf.unread memory) = some (length, left) →
    left < length → (call.run memory buf).1 = false
  varint : ∀ value, call.request.varint (buf.unread memory) = some value →
    2 ^ 64 ≤ value → (call.run memory buf).1 = false
  tag : call = .tag → (call.run memory buf).1 = true → buf.addr < (call.run memory buf).2.addr

/-- A varint cut off by the end of the buffer is not at the end of the address space. -/
def WireBuffer.EndsInside (buf : WireBuffer) : Prop :=
  decodeVarint (buf.unread memory) = none → (buf.unread memory).length < 10 →
    buf.limit.toNat + 1 < 2 ^ 64

/-- No bounds check wraps around, and no varint of at most ten bytes has more than 64
bits. A payload that does not fit is out of range also after its length is reduced to 64
bits. -/
def Request.Fits (buf : WireBuffer) : Request → Prop
  | .number => buf.EndsInside memory ∧ ∀ value rest,
      decodeVarint (buf.unread memory) = some (value, rest) →
      (buf.unread memory).length ≤ 10 + rest.length → value < 2 ^ 64
  | .copy length | .pass length => buf.addr.toNat + length.toNat < 2 ^ 64
  | .payload => buf.EndsInside memory ∧ ∀ value rest,
      decodeVarint (buf.unread memory) = some (value, rest) →
      (buf.unread memory).length ≤ 10 + rest.length → rest.length < value →
      buf.limit.toNat < buf.limit.toNat - rest.length + value % 2 ^ 64 ∧
        buf.limit.toNat - rest.length + value % 2 ^ 64 < 2 ^ 64
  | .refused => True

/-- Nothing is asked of a buffer with an error, or what is asked for fits. -/
def Call.Fits (call : Call) (buf : WireBuffer) : Prop :=
  buf.error = true ∨ call.request.Fits memory buf

end Safety

variable {memory : Address → Byte} {buf final : WireBuffer}

/-- The run of a request, whatever becomes of the value. -/
def Request.run (memory : Address → Byte) : Request → StateM WireBuffer Bool
  | .number => Option.isSome <$> wireReadRawVarint memory
  | .copy length => Option.isSome <$> wireReadRaw memory length
  | .pass length => do
      if !(← wireCheck length) then return false
      modify fun buf => buf.advance length
      return true
  | .payload => Option.isSome <$> wireReadBytes memory
  | .refused => do
      modify fun buf => buf.fail
      return false

/-- What becomes of a value does not change whether there is one. -/
theorem isSome_bind {Value Result : Type} {action : StateM WireBuffer (Option Value)}
    {next : Option Value → StateM WireBuffer (Option Result)}
    (keeps : ∀ value buf, ((next value buf).1.isSome, (next value buf).2) = (value.isSome, buf)) :
    Option.isSome <$> (action >>= next) = Option.isSome <$> action := by
  funext buf
  cases outcome : action buf with
  | mk value final =>
    have whole : (action >>= next) buf = next value final := run_bind outcome
    have mapped : (Option.isSome <$> (action >>= next)) buf =
        ((next value final).1.isSome, (next value final).2) := by
      rw [← whole]
      rfl
    have single : (Option.isSome <$> action) buf = (value.isSome, final) := by
      have result : (Option.isSome <$> action) buf = ((action buf).1.isSome, (action buf).2) := rfl
      rw [result, outcome]
    rw [mapped, single]
    exact keeps value final

theorem Call.run_eq (call : Call) : call.run memory = call.request.run memory := by
  cases call with
  | rawVarint | raw | varint | uint64 | bytes => rfl
  | tag | signedVarint | bool | int32 | uint32 | int64 | fixed32 | fixed64 =>
    apply isSome_bind
    rintro (_ | value) buf <;> rfl
  | double =>
    have outer : Call.double.run memory = Call.fixed64.run memory := by
      apply isSome_bind
      rintro (_ | value) buf <;> rfl
    rw [outer]
    apply isSome_bind
    rintro (_ | value) buf <;> rfl
  | float =>
    have outer : Call.float.run memory = Call.fixed32.run memory := by
      apply isSome_bind
      rintro (_ | value) buf <;> rfl
    rw [outer]
    apply isSome_bind
    rintro (_ | value) buf <;> rfl
  | skip wireType =>
    cases wireType with
    | varint | fixed32 | fixed64 | startGroup | endGroup | unnamed => rfl
    | lengthDelimited =>
      funext buf
      cases outcome : wireReadRawVarint memory buf with
      | mk value final =>
        have skips : wireSkip memory .lengthDelimited buf = _ := run_bind outcome
        have reads : wireReadBytes memory buf = _ := run_bind outcome
        have result : (Option.isSome <$> wireReadBytes memory) buf =
            ((wireReadBytes memory buf).1.isSome, (wireReadBytes memory buf).2) := rfl
        rw [Call.run, Call.request, Request.run, skips, result, reads]
        cases value with
        | none => rfl
        | some len =>
          cases checked : wireCheck len final with
          | mk passes final =>
            cases passes with
            | false =>
              simp only [bind, StateT.bind, checked, Bool.not_false, if_true]
              rfl
            | true =>
              simp only [bind, StateT.bind, checked, Bool.not_true, Bool.false_eq_true, if_false]
              rfl

theorem wireCheck_of_error {n : BitVec 64} (error : buf.error = true) :
    wireCheck n buf = (false, buf) := by
  rw [wireCheck, if_pos error]

/-- A check changes the error flag alone, and only when it fails. -/
theorem wireCheck_same {n : BitVec 64} {passes : Bool}
    (checked : wireCheck n buf = (passes, final)) :
    final.touched = buf.touched ∧ (passes = true → final = buf) := by
  simp only [wireCheck] at checked
  split_ifs at checked <;> cases checked <;> exact ⟨rfl, by simp⟩

/-- A sum that does not wrap around compares with the end as it should. -/
theorem wireCheck_of_fits {n : BitVec 64} (bounded : buf.Bounded) (noError : buf.error = false)
    (fits : buf.addr.toNat + n.toNat < 2 ^ 64) :
    wireCheck n buf =
      if n.toNat ≤ buf.limit.toNat - buf.addr.toNat then (true, buf) else (false, buf.fail) := by
  have inside : buf.addr.toNat ≤ buf.limit.toNat := bounded.addr_le
  have sum : (buf.addr + n).toNat = buf.addr.toNat + n.toNat := by
    rw [BitVec.toNat_add, Nat.mod_eq_of_lt fits]
  have compare : buf.addr + n ≤ buf.limit ↔ n.toNat ≤ buf.limit.toNat - buf.addr.toNat := by
    rw [BitVec.le_def, sum]
    omega
  simp [wireCheck, noError, compare]

/-- A sum that wraps around is below the cursor, so the check passes. -/
theorem wireCheck_of_wraps {n : BitVec 64} (bounded : buf.Bounded) (noError : buf.error = false)
    (wraps : 2 ^ 64 ≤ buf.addr.toNat + n.toNat) : wireCheck n buf = (true, buf) := by
  have inside : buf.addr.toNat ≤ buf.limit.toNat := bounded.addr_le
  have compare : buf.addr + n ≤ buf.limit := by
    rw [BitVec.le_def, BitVec.toNat_add]
    omega
  simp only [wireCheck, noError, Bool.false_eq_true, if_false, if_pos compare]

section

variable {n : BitVec 64} (bounded : buf.Bounded) (room : n.toNat ≤ buf.limit.toNat - buf.addr.toNat)

include bounded room

/-- A cursor that moves by bytes that remain. -/
theorem WireBuffer.toNat_advance : (buf.addr + n).toNat = buf.addr.toNat + n.toNat := by
  rw [BitVec.toNat_add, Nat.mod_eq_of_lt (by omega)]

theorem WireBuffer.Bounded.advance : (buf.advance n).Bounded := by
  have moved := toNat_advance bounded room
  have inside : buf.addr.toNat ≤ buf.limit.toNat := bounded.addr_le
  have start : buf.start.toNat ≤ buf.addr.toNat := bounded.start_le
  constructor
  · rw [BitVec.le_def]
    simp only [WireBuffer.advance, moved]
    omega
  · rw [BitVec.le_def]
    simp only [WireBuffer.advance, moved]
    omega
  · exact bounded.touched

theorem WireBuffer.Bounded.take : (buf.take n).Bounded := by
  have moved := bounded.advance room
  have start : buf.start.toNat ≤ buf.addr.toNat := bounded.start_le
  refine ⟨moved.start_le, moved.addr_le, ?_⟩
  intro address member
  rcases List.mem_append.mp member with old | new
  · exact bounded.touched address old
  · obtain ⟨offset, below, rfl⟩ := List.mem_map.mp new
    rw [List.mem_range] at below
    have place : (buf.addr + BitVec.ofNat 64 offset).toNat = buf.addr.toNat + offset := by
      have small : offset < 2 ^ 64 := by omega
      rw [BitVec.toNat_add, BitVec.toNat_ofNat, Nat.mod_eq_of_lt small, Nat.mod_eq_of_lt (by omega)]
    simp only [WireBuffer.take, WireBuffer.advance, BitVec.le_def, BitVec.lt_def, place]
    omega

end

theorem WireBuffer.Bounded.fail (bounded : buf.Bounded) : buf.fail.Bounded :=
  ⟨bounded.start_le, bounded.addr_le, bounded.touched⟩

variable (memory) in
theorem length_unread : (buf.unread memory).length = buf.limit.toNat - buf.addr.toNat := by
  simp [WireBuffer.unread, WireBuffer.next]

/-- The bytes that remain behind the next ones. -/
theorem unread_advance {n : BitVec 64} (bounded : buf.Bounded)
    (room : n.toNat ≤ buf.limit.toNat - buf.addr.toNat) :
    (buf.advance n).unread memory = (buf.unread memory).drop n.toNat := by
  have moved := WireBuffer.toNat_advance bounded room
  have left : buf.limit.toNat - (buf.addr.toNat + n.toNat) =
      buf.limit.toNat - buf.addr.toNat - n.toNat := by omega
  simp only [WireBuffer.unread, WireBuffer.next, WireBuffer.advance, moved, left,
    ← List.map_drop, List.range_eq_range', List.drop_range']
  rw [List.range'_eq_map_range, List.range'_eq_map_range, List.map_map, List.map_map,
    List.map_map, List.map_map]
  apply List.map_congr_left
  intro offset _
  simp only [Function.comp_apply, Nat.zero_add, Nat.mul_one, BitVec.ofNat_add,
    BitVec.ofNat_toNat, BitVec.setWidth_eq, BitVec.add_assoc]

theorem unread_take {n : BitVec 64} (bounded : buf.Bounded)
    (room : n.toNat ≤ buf.limit.toNat - buf.addr.toNat) :
    (buf.take n).unread memory = (buf.unread memory).drop n.toNat :=
  unread_advance bounded room

variable (memory) in
/-- The first unread byte is the one at the cursor. -/
theorem unread_cons (room : buf.addr.toNat < buf.limit.toNat) :
    buf.unread memory = memory buf.addr :: (buf.unread memory).tail := by
  obtain ⟨left, leftEq⟩ : ∃ left, buf.limit.toNat - buf.addr.toNat = left + 1 :=
    ⟨_, (Nat.sub_add_cancel (by omega)).symm⟩
  simp [WireBuffer.unread, WireBuffer.next, leftEq, List.range_succ_eq_map]

/-! ## Varints -/

/-- The low seven bits of a byte, and whether another byte follows. -/
theorem byte_groups (byte : Byte) :
    byte.setWidth 64 &&& 0x7f = BitVec.ofNat 64 (byte.toNat % 128) ∧
      ((byte.setWidth 64 &&& 0x80 == 0) = true ↔ byte.toNat < 128) := by
  have table : ∀ value : Fin 256,
      (BitVec.ofFin value : Byte).setWidth 64 &&& 0x7f = BitVec.ofNat 64 (value.val % 128) ∧
        (((BitVec.ofFin value : Byte).setWidth 64 &&& 0x80 == 0) = true ↔ value.val < 128) := by
    decide +kernel
  exact table byte.toFin

variable {shift : ℕ}

/-- A group is put above the groups before it. -/
theorem or_group {value : ℕ} (small : value < 2 ^ shift) (group : ℕ) :
    BitVec.ofNat 64 value ||| BitVec.ofNat 64 group <<< shift =
      BitVec.ofNat 64 (value + 2 ^ shift * group) := by
  have shifted : BitVec.ofNat 64 group <<< shift = BitVec.ofNat 64 (2 ^ shift * group) := by
    apply BitVec.eq_of_toNat_eq
    simp [Nat.shiftLeft_eq, Nat.mul_comm]
  rw [shifted, ← BitVec.ofNat_or, Nat.or_comm, ← Nat.two_pow_add_eq_or_of_lt small, Nat.add_comm]

variable {value : BitVec 64} {left : ℕ}

theorem readVarintLoop_of_check (checked : wireCheck 1 buf = (true, buf)) :
    readVarintLoop memory shift value (left + 1) buf =
      if (memory buf.addr).toNat < 128 then
        (some (value ||| BitVec.ofNat 64 ((memory buf.addr).toNat % 128) <<< shift), buf.take 1)
      else
        readVarintLoop memory (shift + 7)
          (value ||| BitVec.ofNat 64 ((memory buf.addr).toNat % 128) <<< shift) left
          (buf.take 1) := by
  obtain ⟨group, ends⟩ := byte_groups (memory buf.addr)
  have reads : (get : StateM WireBuffer WireBuffer) buf = (buf, buf) := rfl
  have moves : (modify fun buf => buf.take 1 : StateM WireBuffer Unit) buf = ((), buf.take 1) :=
    rfl
  rw [readVarintLoop, run_bind checked]
  simp only [Bool.not_true, Bool.false_eq_true, if_false]
  rw [run_bind reads, run_bind moves, group]
  by_cases last : (memory buf.addr).toNat < 128
  · rw [if_pos last, if_pos (ends.mpr last)]
    rfl
  · rw [if_neg last, if_neg (mt ends.mp last)]

theorem readVarintLoop_of_refused (refused : wireCheck 1 buf = (false, final)) :
    readVarintLoop memory shift value (left + 1) buf = (none, final) := by
  rw [readVarintLoop, run_bind refused]
  rfl

variable {byte : Byte}

theorem decodeVarint_last (last : byte.toNat < 128) (rest : List Byte) :
    decodeVarint (byte :: rest) = some (byte.toNat, rest) := by
  rw [decodeVarint, if_pos last]

theorem decodeVarint_more (more : ¬byte.toNat < 128) (rest : List Byte) :
    decodeVarint (byte :: rest) = (decodeVarint rest).map fun decoded =>
      (byte.toNat - 128 + 128 * decoded.1, decoded.2) := by
  rw [decodeVarint, if_neg more]

theorem length_decodeVarint {bytes rest : List Byte} {number : ℕ}
    (decoded : decodeVarint bytes = some (number, rest)) : rest.length < bytes.length := by
  induction bytes generalizing number with
  | nil => cases decoded
  | cons byte bytes ih =>
    by_cases last : byte.toNat < 128
    · rw [decodeVarint_last last] at decoded
      cases decoded
      exact Nat.lt_succ_self _
    · rw [decodeVarint_more last, Option.map_eq_some_iff] at decoded
      obtain ⟨⟨inner, _⟩, inside, same⟩ := decoded
      cases same
      exact Nat.lt_succ_of_lt (ih inside)

/-- What a safe run of the loop does. The value grows by the groups it reads, and a
varint is refused when it is cut off or has more than `left` bytes. -/
structure ReadsVarint (memory : Address → Byte) (left shift value : ℕ) (buf : WireBuffer)
    (result : Option (BitVec 64)) (final : WireBuffer) : Prop where
  same : final.start = buf.start ∧ final.limit = buf.limit
  bounded : final.Bounded
  forward : buf.addr ≤ final.addr
  error : final.error = result.isNone
  accepted : ∀ word, result = some word → ∃ number rest,
    decodeVarint (buf.unread memory) = some (number, rest) ∧ final.unread memory = rest ∧
      (buf.unread memory).length ≤ left + rest.length ∧
      word = BitVec.ofNat 64 (value + 2 ^ shift * number)
  refused : result = none → ∀ number rest,
    decodeVarint (buf.unread memory) = some (number, rest) →
      left + rest.length < (buf.unread memory).length

theorem readVarintLoop_spec {value : ℕ} (bounded : buf.Bounded) (noError : buf.error = false)
    (small : value < 2 ^ shift)
    (endsInside : decodeVarint (buf.unread memory) = none → (buf.unread memory).length < left →
      buf.limit.toNat + 1 < 2 ^ 64) :
    ∃ result final,
      readVarintLoop memory shift (BitVec.ofNat 64 value) left buf = (result, final) ∧
        ReadsVarint memory left shift value buf result final := by
  induction left generalizing buf shift value with
  | zero =>
    refine ⟨none, buf.fail, rfl, ⟨rfl, rfl⟩, bounded.fail, BitVec.le_refl _, rfl, ?_, ?_⟩
    · intro word impossible
      cases impossible
    · intro _ number rest decoded
      rw [Nat.zero_add]
      exact length_decodeVarint decoded
  | succ left ih =>
    have inside : buf.addr.toNat ≤ buf.limit.toNat := bounded.addr_le
    rcases Nat.lt_or_eq_of_le inside with room | atEnd
    · have fits : buf.addr.toNat + (1 : BitVec 64).toNat < 2 ^ 64 := by
        rw [show (1 : BitVec 64).toNat = 1 from rfl]
        omega
      have one : (1 : BitVec 64).toNat ≤ buf.limit.toNat - buf.addr.toNat := by
        rw [show (1 : BitVec 64).toNat = 1 from rfl]
        omega
      have checked : wireCheck 1 buf = (true, buf) := by
        rw [wireCheck_of_fits bounded noError fits, if_pos one]
      have unread := unread_cons memory room
      have rest : (buf.take 1).unread memory = (buf.unread memory).tail := by
        rw [unread_take bounded one]
        exact List.drop_one
      have moved : (buf.addr + 1).toNat = buf.addr.toNat + 1 :=
        WireBuffer.toNat_advance bounded one
      have forward : buf.addr ≤ buf.addr + 1 := by
        rw [BitVec.le_def, moved]
        exact Nat.le_succ _
      rw [readVarintLoop_of_check checked, or_group small]
      by_cases last : (memory buf.addr).toNat < 128
      · rw [if_pos last]
        have decoded := decodeVarint_last last (buf.unread memory).tail
        rw [← unread] at decoded
        refine ⟨_, _, rfl, ⟨rfl, rfl⟩, bounded.take one, forward, noError, ?_, ?_⟩
        · intro word same
          cases same
          refine ⟨_, _, decoded, rest, ?_, ?_⟩
          · rw [List.length_tail]
            omega
          · rw [Nat.mod_eq_of_lt last]
        · intro impossible
          cases impossible
      · rw [if_neg last]
        have decoded := decodeVarint_more last (buf.unread memory).tail
        rw [← unread, ← rest] at decoded
        have length : (buf.unread memory).length = ((buf.take 1).unread memory).length + 1 := by
          rw [rest, unread]
          rfl
        have smaller : value + 2 ^ shift * ((memory buf.addr).toNat % 128) <
            2 ^ (shift + 7) := by
          have group : (memory buf.addr).toNat % 128 ≤ 127 :=
            Nat.le_of_lt_succ (Nat.mod_lt _ (by decide))
          have below := Nat.mul_le_mul_left (2 ^ shift) group
          rw [Nat.pow_add]
          omega
        obtain ⟨result, final, runs, reads⟩ := ih (bounded.take one)
          noError smaller (by
            intro cut short
            apply endsInside
            · rw [decoded, cut]
              rfl
            · omega)
        refine ⟨result, final, runs, reads.same, reads.bounded,
          BitVec.le_trans forward reads.forward, reads.error, ?_, ?_⟩
        · intro word same
          obtain ⟨number, back, inner, final, short, word⟩ := reads.accepted word same
          refine ⟨(memory buf.addr).toNat - 128 + 128 * number, back, ?_, final, ?_, ?_⟩
          · rw [decoded, inner]
            rfl
          · omega
          · rw [word]
            have group : (memory buf.addr).toNat % 128 = (memory buf.addr).toNat - 128 := by
              omega
            rw [group, Nat.pow_add, Nat.mul_assoc, Nat.add_assoc, ← Nat.mul_add]
        · intro none number back whole
          rw [decoded, Option.map_eq_some_iff] at whole
          obtain ⟨⟨inner, after⟩, inside, same⟩ := whole
          cases same
          have long : left + after.length < _ := reads.refused none _ _ inside
          show left + 1 + after.length < _
          omega
    · have empty : buf.unread memory = [] := by
        rw [← List.length_eq_zero_iff, length_unread]
        omega
      have fits : buf.addr.toNat + (1 : BitVec 64).toNat < 2 ^ 64 := by
        rw [atEnd]
        apply endsInside
        · rw [empty]
          rfl
        · rw [empty]
          exact Nat.succ_pos _
      have refused : wireCheck 1 buf = (false, buf.fail) := by
        rw [wireCheck_of_fits bounded noError fits, if_neg]
        rw [show (1 : BitVec 64).toNat = 1 from rfl]
        omega
      rw [readVarintLoop_of_refused refused]
      refine ⟨none, buf.fail, rfl, ⟨rfl, rfl⟩, bounded.fail, BitVec.le_refl _, rfl, ?_, ?_⟩
      · intro word impossible
        cases impossible
      · intro _ number rest decoded
        rw [empty] at decoded
        cases decoded

theorem wireReadRawVarint_spec (bounded : buf.Bounded) (noError : buf.error = false)
    (endsInside : buf.EndsInside memory) :
    ∃ result final, wireReadRawVarint memory buf = (result, final) ∧
      ReadsVarint memory 10 0 0 buf result final :=
  readVarintLoop_spec bounded noError Nat.one_pos endsInside

theorem touched_readVarintLoop {address : Address} (touched : address ∈ buf.touched) :
    address ∈ (readVarintLoop memory shift value left buf).2.touched := by
  induction left generalizing buf shift value with
  | zero => exact touched
  | succ left ih =>
    cases checked : wireCheck 1 buf with
    | mk passes final =>
      have same := wireCheck_same checked
      cases passes with
      | false =>
        rw [readVarintLoop_of_refused checked, same.1]
        exact touched
      | true =>
        rw [same.2 rfl] at checked
        rw [readVarintLoop_of_check checked]
        have later : address ∈ (buf.take 1).touched := List.mem_append_left _ touched
        split_ifs
        · exact later
        · exact ih later

/-- A varint cut off at the end of the address space makes the loop read past it. -/
theorem touched_limit (bounded : buf.Bounded) (noError : buf.error = false)
    (cut : decodeVarint (buf.unread memory) = none) (short : (buf.unread memory).length < left)
    (top : 2 ^ 64 ≤ buf.limit.toNat + 1) :
    buf.limit ∈ (readVarintLoop memory shift value left buf).2.touched := by
  have oneEq : (1 : BitVec 64).toNat = 1 := rfl
  induction left generalizing buf shift value with
  | zero => cases short
  | succ left ih =>
    have inside : buf.addr.toNat ≤ buf.limit.toNat := bounded.addr_le
    rcases Nat.lt_or_eq_of_le inside with room | atEnd
    · have one : (1 : BitVec 64).toNat ≤ buf.limit.toNat - buf.addr.toNat := by omega
      have checked : wireCheck 1 buf = (true, buf) := by
        have top := buf.limit.isLt
        rw [wireCheck_of_fits bounded noError (by omega), if_pos one]
      have unread := unread_cons memory room
      have rest : (buf.take 1).unread memory = (buf.unread memory).tail := by
        rw [unread_take bounded one]
        exact List.drop_one
      rw [unread] at cut short
      rw [readVarintLoop_of_check checked]
      by_cases last : (memory buf.addr).toNat < 128
      · rw [decodeVarint_last last] at cut
        cases cut
      · rw [decodeVarint_more last, Option.map_eq_none_iff, ← rest] at cut
        rw [List.length_cons, ← rest] at short
        rw [if_neg last]
        exact ih (bounded.take one) noError cut (Nat.lt_of_succ_lt_succ short) top
    · have checked : wireCheck 1 buf = (true, buf) := by
        apply wireCheck_of_wraps bounded noError
        omega
      have read : buf.limit ∈ (buf.take 1).touched := by
        apply List.mem_append_right
        have same : buf.limit = buf.addr := (BitVec.eq_of_toNat_eq atEnd).symm
        rw [same, oneEq]
        simp [WireBuffer.next]
      rw [readVarintLoop_of_check checked]
      split_ifs
      · exact read
      · exact touched_readVarintLoop read

/-! ## Safe requests -/

/-- What a safe call does to a buffer without an error. -/
structure Request.Keeps (memory : Address → Byte) (request : Request) (buf : WireBuffer) :
    Prop where
  same : (request.run memory buf).2.start = buf.start ∧ (request.run memory buf).2.limit = buf.limit
  bounded : (request.run memory buf).2.Bounded
  forward : buf.addr ≤ (request.run memory buf).2.addr
  declared : ∀ length left, request.declared (buf.unread memory) = some (length, left) →
    left < length → (request.run memory buf).1 = false
  varint : ∀ value, request.varint (buf.unread memory) = some value →
    2 ^ 64 ≤ value → (request.run memory buf).1 = false

variable (memory) in
theorem Request.run_of_error (request : Request) (error : buf.error = true) :
    request.run memory buf = (false, buf) := by
  have checked (n : BitVec 64) : wireCheck n buf = (false, buf) := wireCheck_of_error error
  have loop : wireReadRawVarint memory buf = (none, buf) :=
    readVarintLoop_of_refused (checked 1)
  cases request with
  | number =>
    have result : Request.number.run memory buf =
        ((wireReadRawVarint memory buf).1.isSome, (wireReadRawVarint memory buf).2) := rfl
    rw [result, loop]
    rfl
  | copy length =>
    have outcome : wireReadRaw memory length buf = (none, buf) := run_bind (checked length)
    have result : (Request.copy length).run memory buf =
        ((wireReadRaw memory length buf).1.isSome, (wireReadRaw memory length buf).2) := rfl
    rw [result, outcome]
    rfl
  | pass length => exact run_bind (checked length)
  | payload =>
    have outcome : wireReadBytes memory buf = (none, buf) := run_bind loop
    have result : Request.payload.run memory buf =
        ((wireReadBytes memory buf).1.isSome, (wireReadBytes memory buf).2) := rfl
    rw [result, outcome]
    rfl
  | refused =>
    have failed : buf.fail = buf := by
      rw [WireBuffer.fail, ← error]
    have result : Request.refused.run memory buf = (false, buf.fail) := rfl
    rw [result, failed]

section Runs

variable {length : BitVec 64} {passes : Bool} {result : Option (BitVec 64)} {middle : WireBuffer}

theorem Request.run_copy (checked : wireCheck length buf = (passes, final)) :
    (Request.copy length).run memory buf =
      if passes then (true, final.take length) else (false, final) := by
  have outcome : wireReadRaw memory length buf = _ := run_bind checked
  have run : (Request.copy length).run memory buf =
      ((wireReadRaw memory length buf).1.isSome, (wireReadRaw memory length buf).2) := rfl
  rw [run, outcome]
  cases passes <;> rfl

theorem Request.run_pass (checked : wireCheck length buf = (passes, final)) :
    (Request.pass length).run memory buf =
      if passes then (true, final.advance length) else (false, final) := by
  have outcome : (Request.pass length).run memory buf = _ := run_bind checked
  rw [outcome]
  cases passes <;> rfl

theorem Request.run_number (reads : wireReadRawVarint memory buf = (result, final)) :
    Request.number.run memory buf = (result.isSome, final) := by
  have run : Request.number.run memory buf =
      ((wireReadRawVarint memory buf).1.isSome, (wireReadRawVarint memory buf).2) := rfl
  rw [run, reads]

theorem Request.run_payload_of_none (reads : wireReadRawVarint memory buf = (none, final)) :
    Request.payload.run memory buf = (false, final) := by
  have outcome : wireReadBytes memory buf = (none, final) := run_bind reads
  have run : Request.payload.run memory buf =
      ((wireReadBytes memory buf).1.isSome, (wireReadBytes memory buf).2) := rfl
  rw [run, outcome]
  rfl

theorem Request.run_payload (reads : wireReadRawVarint memory buf = (some length, middle))
    (checked : wireCheck length middle = (passes, final)) :
    Request.payload.run memory buf =
      if passes then (true, final.advance length) else (false, final) := by
  have inner : wireReadBytes memory buf = _ := run_bind reads
  have outcome : wireReadBytes memory buf = _ := inner.trans (run_bind checked)
  have run : Request.payload.run memory buf =
      ((wireReadBytes memory buf).1.isSome, (wireReadBytes memory buf).2) := rfl
  rw [run, outcome]
  cases passes <;> rfl

end Runs

variable (memory) in
/-- A check whose sum does not wrap around accepts what remains and refuses more. -/
theorem exists_wireCheck {n : BitVec 64} (bounded : buf.Bounded) (noError : buf.error = false)
    (fits : buf.addr.toNat + n.toNat < 2 ^ 64) :
    (n.toNat ≤ (buf.unread memory).length ∧ wireCheck n buf = (true, buf)) ∨
      ((buf.unread memory).length < n.toNat ∧ wireCheck n buf = (false, buf.fail)) := by
  rw [length_unread, wireCheck_of_fits bounded noError fits]
  rcases Nat.lt_or_ge (buf.limit.toNat - buf.addr.toNat) n.toNat with large | small
  · exact .inr ⟨large, if_neg (Nat.not_le.mpr large)⟩
  · exact .inl ⟨small, if_pos small⟩

theorem WireBuffer.Bounded.forward {n : BitVec 64} (bounded : buf.Bounded)
    (room : n.toNat ≤ (buf.unread memory).length) : buf.addr ≤ buf.addr + n := by
  rw [length_unread] at room
  rw [BitVec.le_def, WireBuffer.toNat_advance bounded room]
  exact Nat.le_add_right _ _

/-- The buffer after a call has the same ends, and its cursor is not before it was. -/
structure WireBuffer.Reaches (buf final : WireBuffer) : Prop where
  same : final.start = buf.start ∧ final.limit = buf.limit
  bounded : final.Bounded
  forward : buf.addr ≤ final.addr

theorem Request.keeps_of_refused {request : Request}
    (run : request.run memory buf = (false, final)) (reaches : buf.Reaches final) :
    request.Keeps memory buf where
  same := by rw [run]; exact reaches.same
  bounded := by rw [run]; exact reaches.bounded
  forward := by rw [run]; exact reaches.forward
  declared := by rw [run]; exact fun _ _ _ _ => rfl
  varint := by rw [run]; exact fun _ _ _ => rfl

theorem Request.keeps_of_accepted {request : Request}
    (run : request.run memory buf = (true, final)) (reaches : buf.Reaches final)
    (declared : ∀ length left, request.declared (buf.unread memory) = some (length, left) →
      length ≤ left)
    (varint : ∀ value, request.varint (buf.unread memory) = some value → value < 2 ^ 64) :
    request.Keeps memory buf where
  same := by rw [run]; exact reaches.same
  bounded := by rw [run]; exact reaches.bounded
  forward := by rw [run]; exact reaches.forward
  declared := by
    intro length left isDeclared large
    exact absurd (declared length left isDeclared) (Nat.not_le.mpr large)
  varint := by
    intro value isVarint large
    exact absurd (varint value isVarint) (Nat.not_lt.mpr large)

theorem WireBuffer.Bounded.reaches_fail (bounded : buf.Bounded) : buf.Reaches buf.fail :=
  ⟨⟨rfl, rfl⟩, bounded.fail, BitVec.le_refl _⟩

theorem WireBuffer.Bounded.reaches_advance {n : BitVec 64} (bounded : buf.Bounded)
    (room : n.toNat ≤ (buf.unread memory).length) : buf.Reaches (buf.advance n) :=
  ⟨⟨rfl, rfl⟩, bounded.advance (length_unread memory ▸ room), bounded.forward room⟩

theorem WireBuffer.Bounded.reaches_take {n : BitVec 64} (bounded : buf.Bounded)
    (room : n.toNat ≤ (buf.unread memory).length) : buf.Reaches (buf.take n) :=
  ⟨⟨rfl, rfl⟩, bounded.take (length_unread memory ▸ room), bounded.forward room⟩

theorem WireBuffer.Reaches.trans {middle : WireBuffer} (first : buf.Reaches middle)
    (second : middle.Reaches final) : buf.Reaches final where
  same := ⟨second.same.1.trans first.same.1, second.same.2.trans first.same.2⟩
  bounded := second.bounded
  forward := BitVec.le_trans first.forward second.forward

theorem ReadsVarint.reaches {value : ℕ} {result : Option (BitVec 64)}
    (reads : ReadsVarint memory left shift value buf result final) : buf.Reaches final :=
  ⟨reads.same, reads.bounded, reads.forward⟩

/-- A number of at most 64 bits is read as it is encoded. -/
theorem ReadsVarint.word {word : BitVec 64}
    (reads : ReadsVarint memory 10 0 0 buf (some word) final) :
    ∃ number, decodeVarint (buf.unread memory) = some (number, final.unread memory) ∧
      (buf.unread memory).length ≤ 10 + (final.unread memory).length ∧
      word.toNat = number % 2 ^ 64 := by
  obtain ⟨number, rest, decoded, rfl, short, rfl⟩ := reads.accepted word rfl
  refine ⟨number, decoded, short, ?_⟩
  rw [BitVec.toNat_ofNat, Nat.pow_zero, Nat.one_mul, Nat.zero_add]

variable (memory) in
/-- The cursor after a varint is as far from the end as the bytes after it are many. -/
theorem WireBuffer.Bounded.addr_eq (bounded : buf.Bounded) :
    buf.addr.toNat = buf.limit.toNat - (buf.unread memory).length := by
  have inside : buf.addr.toNat ≤ buf.limit.toNat := bounded.addr_le
  rw [length_unread]
  omega

theorem Request.keeps_of_fits {request : Request} (bounded : buf.Bounded)
    (noError : buf.error = false) (fits : request.Fits memory buf) : request.Keeps memory buf := by
  cases request with
  | copy n =>
    rcases exists_wireCheck memory bounded noError fits with
      ⟨room, checked⟩ | ⟨large, checked⟩
    · apply keeps_of_accepted (run_copy checked) (bounded.reaches_take room)
      · intro length left declared
        cases declared
        exact room
      · intro value impossible
        cases impossible
    · exact keeps_of_refused (run_copy checked) bounded.reaches_fail
  | pass n =>
    rcases exists_wireCheck memory bounded noError fits with
      ⟨room, checked⟩ | ⟨large, checked⟩
    · apply keeps_of_accepted (run_pass checked) (bounded.reaches_advance room)
      · intro length left declared
        cases declared
        exact room
      · intro value impossible
        cases impossible
    · exact keeps_of_refused (run_pass checked) bounded.reaches_fail
  | number =>
    obtain ⟨result, final, run, reads⟩ := wireReadRawVarint_spec bounded noError fits.1
    cases result with
    | none => exact keeps_of_refused (run_number run) reads.reaches
    | some word =>
      obtain ⟨number, decoded, short, -⟩ := reads.word
      apply keeps_of_accepted (run_number run) reads.reaches
      · intro length left impossible
        cases impossible
      · intro value isVarint
        rw [Request.varint, decoded] at isVarint
        cases isVarint
        exact fits.2 _ _ decoded short
  | payload =>
    obtain ⟨result, middle, run, reads⟩ := wireReadRawVarint_spec bounded noError fits.1
    cases result with
    | none => exact keeps_of_refused (run_payload_of_none run) reads.reaches
    | some word =>
      obtain ⟨number, decoded, short, wordEq⟩ := reads.word
      have place := reads.bounded.addr_eq memory
      rw [reads.same.2] at place
      have below : (middle.unread memory).length ≤ buf.limit.toNat := by
        rw [length_unread, reads.same.2]
        exact Nat.sub_le _ _
      rcases Nat.lt_or_ge (middle.unread memory).length number with large | room
      · obtain ⟨beyond, noWrap⟩ := fits.2 _ _ decoded short large
        have sum : middle.addr.toNat + word.toNat < 2 ^ 64 := by
          rw [place, wordEq]
          exact noWrap
        rcases exists_wireCheck memory reads.bounded reads.error sum with
          ⟨room, checked⟩ | ⟨_, checked⟩
        · rw [wordEq] at room
          omega
        · exact keeps_of_refused (run_payload run checked)
            (reads.reaches.trans reads.bounded.reaches_fail)
      · have top := buf.limit.isLt
        have sum : middle.addr.toNat + word.toNat < 2 ^ 64 := by
          omega
        rcases exists_wireCheck memory reads.bounded reads.error sum with
          ⟨room, checked⟩ | ⟨large, _⟩
        · apply keeps_of_accepted (run_payload run checked)
            (reads.reaches.trans (reads.bounded.reaches_advance room))
          · intro length left declared
            rw [Request.declared, decoded] at declared
            cases declared
            omega
          · intro value isVarint
            rw [Request.varint, decoded] at isVarint
            cases isVarint
            omega
        · omega
  | refused => exact keeps_of_refused rfl bounded.reaches_fail

/-- A varint cut off at the end of the address space is read past the end. -/
theorem endsInside_of_untouched (bounded : buf.Bounded) (noError : buf.error = false)
    (untouched : buf.limit ∉ (wireReadRawVarint memory buf).2.touched) : buf.EndsInside memory := by
  intro cut short
  by_contra top
  exact untouched (touched_limit bounded noError cut short (Nat.not_lt.mp top))

theorem Request.Keeps.untouched {request : Request} (keeps : request.Keeps memory buf) :
    buf.limit ∉ (request.run memory buf).2.touched := by
  intro read
  have inside := (keeps.bounded.touched buf.limit read).2
  rw [keeps.same.2] at inside
  exact absurd inside (BitVec.lt_irrefl _)

theorem Request.fits_of_keeps {request : Request} (bounded : buf.Bounded)
    (noError : buf.error = false) (keeps : request.Keeps memory buf) : request.Fits memory buf := by
  -- a sum that wraps around passes the check of a length that is too large
  have noWrap {n : BitVec 64} (refused : (buf.unread memory).length < n.toNat →
      wireCheck n buf ≠ (true, buf)) : buf.addr.toNat + n.toNat < 2 ^ 64 := by
    by_contra wraps
    have wraps := Nat.not_lt.mp wraps
    apply refused
    · rw [length_unread]
      omega
    · exact wireCheck_of_wraps bounded noError wraps
  cases request with
  | copy n =>
    apply noWrap
    intro large passes
    have refuses := keeps.declared _ _ rfl large
    rw [run_copy passes] at refuses
    cases refuses
  | pass n =>
    apply noWrap
    intro large passes
    have refuses := keeps.declared _ _ rfl large
    rw [run_pass passes] at refuses
    cases refuses
  | number =>
    have endsInside : buf.EndsInside memory :=
      endsInside_of_untouched bounded noError keeps.untouched
    refine ⟨endsInside, ?_⟩
    intro value rest decoded short
    by_contra large
    obtain ⟨result, final, run, reads⟩ := wireReadRawVarint_spec bounded noError endsInside
    have refuses := keeps.varint value (by rw [Request.varint, decoded]; rfl) (Nat.not_lt.mp large)
    rw [run_number run] at refuses
    cases result with
    | none =>
      have long := reads.refused rfl _ _ decoded
      omega
    | some word => cases refuses
  | payload =>
    have endsInside : buf.EndsInside memory := by
      apply endsInside_of_untouched bounded noError
      cases run : wireReadRawVarint memory buf with
      | mk result middle =>
        have untouched := keeps.untouched
        cases result with
        | none =>
          rw [run_payload_of_none run] at untouched
          exact untouched
        | some word =>
          cases checked : wireCheck word middle with
          | mk passes final =>
            rw [run_payload run checked] at untouched
            have same := (wireCheck_same checked).1
            cases passes with
            | false => rwa [← same]
            | true => rwa [← same]
    refine ⟨endsInside, ?_⟩
    intro value rest decoded short large
    obtain ⟨result, middle, run, reads⟩ := wireReadRawVarint_spec bounded noError endsInside
    have refuses := keeps.declared value rest.length (by rw [Request.declared, decoded]; rfl) large
    cases result with
    | none =>
      have long := reads.refused rfl _ _ decoded
      omega
    | some word =>
      obtain ⟨number, decodedToo, -, wordEq⟩ := reads.word
      rw [decoded] at decodedToo
      cases decodedToo
      have place := reads.bounded.addr_eq memory
      rw [reads.same.2] at place
      rw [← wordEq, ← place]
      have sum : middle.addr.toNat + word.toNat < 2 ^ 64 := by
        by_contra wraps
        have checked := wireCheck_of_wraps reads.bounded reads.error (Nat.not_lt.mp wraps)
        rw [run_payload run checked] at refuses
        cases refuses
      rcases exists_wireCheck memory reads.bounded reads.error sum with
        ⟨_, checked⟩ | ⟨beyond, _⟩
      · rw [run_payload run checked] at refuses
        cases refuses
      · rw [length_unread, reads.same.2] at beyond
        exact ⟨by omega, sum⟩
  | refused => exact trivial

/-- A tag that is read lets the cursor advance. -/
theorem addr_lt_of_number (bounded : buf.Bounded) (noError : buf.error = false)
    (fits : Request.number.Fits memory buf) (succeeds : (Request.number.run memory buf).1 = true) :
    buf.addr < (Request.number.run memory buf).2.addr := by
  obtain ⟨result, final, run, reads⟩ := wireReadRawVarint_spec bounded noError fits.1
  rw [Request.run_number run] at succeeds ⊢
  cases result with
  | none => cases succeeds
  | some word =>
    obtain ⟨number, decoded, -, -⟩ := reads.word
    have shorter := length_decodeVarint decoded
    have before := bounded.addr_eq memory
    have after := reads.bounded.addr_eq memory
    rw [reads.same.2] at after
    have most : (buf.unread memory).length ≤ buf.limit.toNat := by
      rw [length_unread]
      exact Nat.sub_le _ _
    show buf.addr.toNat < final.addr.toNat
    omega

/-- A call is safe exactly when what it asks for fits. -/
theorem Call.safe_iff_fits {call : Call} (bounded : buf.Bounded) :
    call.Safe memory buf ↔ call.Fits memory buf := by
  cases error : buf.error with
  | true =>
    have run := call.request.run_of_error memory error
    rw [← call.run_eq] at run
    refine ⟨fun _ => .inl error, fun _ => ⟨fun _ => run, ?_, ?_, ?_, ?_, ?_, ?_⟩⟩
    all_goals rw [run]
    · exact ⟨rfl, rfl⟩
    · exact bounded
    · exact BitVec.le_refl _
    · exact fun _ _ _ _ => rfl
    · exact fun _ _ _ => rfl
    · intro _ impossible
      cases impossible
  | false =>
    constructor
    · intro safe
      right
      apply Request.fits_of_keeps bounded error
      constructor
      all_goals rw [← call.run_eq]
      · exact safe.same
      · exact safe.bounded
      · exact safe.forward
      · exact safe.declared
      · exact safe.varint
    · rintro (impossible | fits)
      · rw [error] at impossible
        cases impossible
      · have keeps := Request.keeps_of_fits bounded error fits
        constructor
        · rw [error]
          intro impossible
          cases impossible
        all_goals rw [call.run_eq]
        · exact keeps.same
        · exact keeps.bounded
        · exact keeps.forward
        · exact keeps.declared
        · exact keeps.varint
        · rintro rfl succeeds
          exact addr_lt_of_number bounded error fits succeeds

/-- The property holds of every call of a run in the buffer it meets. -/
def Throughout (memory : Address → Byte) (property : Call → WireBuffer → Prop) :
    List Call → WireBuffer → Prop
  | [], _ => True
  | call :: calls, buf =>
    property call buf ∧ Throughout memory property calls (call.run memory buf).2

variable {calls : List Call}

theorem throughout_iff (bounded : buf.Bounded) :
    Throughout memory (Call.Safe memory) calls buf ↔
      Throughout memory (Call.Fits memory) calls buf := by
  induction calls generalizing buf with
  | nil => exact Iff.rfl
  | cons call calls ih =>
    constructor
    · rintro ⟨safe, later⟩
      exact ⟨(Call.safe_iff_fits bounded).mp safe, (ih safe.bounded).mp later⟩
    · rintro ⟨fits, later⟩
      have safe := (Call.safe_iff_fits bounded).mpr fits
      exact ⟨safe, (ih safe.bounded).mpr later⟩

def tagsRead (memory : Address → Byte) : List Call → WireBuffer → ℕ
  | [], _ => 0
  | call :: calls, buf =>
    (if call = .tag ∧ (call.run memory buf).1 = true then 1 else 0) +
      tagsRead memory calls (call.run memory buf).2

/-- A safe run reads no more tags than there are bytes, so a loop over the tags of a
buffer ends. -/
theorem tagsRead_le (bounded : buf.Bounded)
    (safe : Throughout memory (Call.Safe memory) calls buf) :
    tagsRead memory calls buf ≤ buf.limit.toNat - buf.addr.toNat := by
  induction calls generalizing buf with
  | nil => exact Nat.zero_le _
  | cons call calls ih =>
    obtain ⟨safe, later⟩ := safe
    have rest := ih safe.bounded later
    rw [safe.same.2] at rest
    have forward : buf.addr.toNat ≤ (call.run memory buf).2.addr.toNat := safe.forward
    have inside : (call.run memory buf).2.addr.toNat ≤ buf.limit.toNat := by
      rw [← safe.same.2]
      exact safe.bounded.addr_le
    rw [tagsRead]
    split_ifs with read
    · have advances : buf.addr.toNat < (call.run memory buf).2.addr.toNat :=
        safe.tag read.1 read.2
      omega
    · omega

theorem bounded_initReader {data : Address} {size : BitVec 64}
    (inSpace : data.toNat + size.toNat < 2 ^ 64) : (wireBufferInitReader data size).Bounded := by
  refine ⟨BitVec.le_refl _, ?_, ?_⟩
  · rw [BitVec.le_def]
    simp only [wireBufferInitReader, BitVec.toNat_add, Nat.mod_eq_of_lt inSpace]
    exact Nat.le_add_right _ _
  · intro address member
    cases member

/-- Every call on a reader of memory that is all in the address space is safe exactly
when what it asks for fits, and then no more tags are read than there are bytes. -/
theorem reader_safe_iff (memory : Address → Byte) (data : Address) (size : BitVec 64)
    (inSpace : data.toNat + size.toNat < 2 ^ 64) (calls : List Call) :
    (Throughout memory (Call.Safe memory) calls (wireBufferInitReader data size) ↔
        Throughout memory (Call.Fits memory) calls (wireBufferInitReader data size)) ∧
      (Throughout memory (Call.Fits memory) calls (wireBufferInitReader data size) →
        tagsRead memory calls (wireBufferInitReader data size) ≤ size.toNat) := by
  have bounded := bounded_initReader inSpace
  refine ⟨throughout_iff bounded, ?_⟩
  intro fits
  have least := tagsRead_le bounded ((throughout_iff bounded).mpr fits)
  simp only [wireBufferInitReader, BitVec.toNat_add, Nat.mod_eq_of_lt inSpace] at least
  simp only [wireBufferInitReader]
  omega

/-- A memory of zeros. -/
def zeros : Address → Byte := fun _ => 0

theorem reader_safe_zeros :
    (Throughout zeros (Call.Safe zeros) [.tag, .bytes] (wireBufferInitReader 0x1000 4) ↔
        Throughout zeros (Call.Fits zeros) [.tag, .bytes] (wireBufferInitReader 0x1000 4)) ∧
      (Throughout zeros (Call.Fits zeros) [.tag, .bytes] (wireBufferInitReader 0x1000 4) →
        tagsRead zeros [.tag, .bytes] (wireBufferInitReader 0x1000 4) ≤ 4) :=
  reader_safe_iff zeros 0x1000 4 (by decide) [.tag, .bytes]

/-- The length of the payload at `0x1000` is sixteen less than `2 ^ 64`. -/
def endless (address : Address) : Byte :=
  if address = 0x1000 then 0xf0 else if address = 0x1009 then 0x01 else 0xff

/-- Its bytes are accepted, and the cursor ends before the buffer. -/
theorem not_safe_endless :
    (0x1000 : Address).toNat + (10 : BitVec 64).toNat < 2 ^ 64 ∧
      ¬Throughout endless (Call.Safe endless) [.bytes] (wireBufferInitReader 0x1000 10) := by
  refine ⟨by decide, ?_⟩
  rintro ⟨safe, -⟩
  have forward := safe.forward
  have cursor : (Call.bytes.run endless (wireBufferInitReader 0x1000 10)).2.addr = 0xffa := by
    decide +kernel
  rw [cursor] at forward
  exact absurd forward (by decide)

end DaveCC.Serialize.Addressed
