import Mathlib.Data.BitVec
import Mathlib.Tactic.Linarith

/-!
# Little-endian words

Words as a little-endian machine lays them out in memory, one after another, and what is read
at an offset.
-/

namespace DaveCC.Arith

/-- The bytes of a word of a number of bytes, the lowest first. -/
def wordBytes : Nat → Nat → List (BitVec 8)
  | 0, _ => []
  | width + 1, value => BitVec.ofNat 8 value :: wordBytes width (value / 256)

def wordOfBytes : List (BitVec 8) → Nat
  | [] => 0
  | byte :: rest => byte.toNat + 256 * wordOfBytes rest

@[simp] theorem length_wordBytes (width value : Nat) : (wordBytes width value).length = width := by
  induction width generalizing value with
  | zero => rfl
  | succ width ih => rw [wordBytes, List.length_cons, ih]

/-- The bytes of a word are the word again, as far as it fits. -/
theorem wordOfBytes_wordBytes (width value : Nat) :
    wordOfBytes (wordBytes width value) = value % 256 ^ width := by
  induction width generalizing value with
  | zero => rw [wordBytes, wordOfBytes, pow_zero, Nat.mod_one]
  | succ width ih =>
    rw [wordBytes, wordOfBytes, ih, BitVec.toNat_ofNat, pow_succ' 256, Nat.mod_mul]

/-- The bytes of words that follow one another. -/
def arrayBytes (width : Nat) (words : List Nat) : List (BitVec 8) :=
  words.flatMap (wordBytes width)

/-- The word at an offset, which has to be inside the bytes. -/
def wordAt (width : Nat) (bytes : List (BitVec 8)) (offset : Nat) : Option Nat :=
  if offset + width ≤ bytes.length then some (wordOfBytes ((bytes.drop offset).take width))
  else none

@[simp] theorem length_arrayBytes (width : Nat) (words : List Nat) :
    (arrayBytes width words).length = width * words.length := by
  induction words with
  | nil => rfl
  | cons word words ih =>
    rw [arrayBytes, List.flatMap_cons, List.length_append, length_wordBytes, List.length_cons,
      Nat.mul_succ, Nat.add_comm]
    exact congrArg (· + width) ih

theorem arrayBytes_append (width : Nat) (words others : List Nat) :
    arrayBytes width (words ++ others) = arrayBytes width words ++ arrayBytes width others :=
  List.flatMap_append

/-- A word that lies between other bytes is read at its offset. -/
theorem wordAt_between (width : Nat) (before after : List (BitVec 8)) (value : Nat) :
    wordAt width (before ++ (wordBytes width value ++ after)) before.length =
      some (value % 256 ^ width) := by
  rw [wordAt, if_pos (by simp), List.drop_left, List.take_left' (length_wordBytes width value),
    wordOfBytes_wordBytes]

variable {width index : Nat}

/-- An array is read at the place of the element. -/
theorem wordAt_array {value : Nat} {words : List Nat} (before after : List (BitVec 8))
    (present : words[index]? = some value) :
    wordAt width (before ++ (arrayBytes width words ++ after)) (before.length + width * index) =
      some (value % 256 ^ width) := by
  have inside : index < words.length := (List.getElem?_eq_some_iff.mp present).1
  have split : words = words.take index ++ value :: words.drop (index + 1) := by
    rw [← (List.getElem?_eq_some_iff.mp present).2, List.cons_getElem_drop_succ,
      List.take_append_drop]
  have placed := wordAt_between width (before ++ arrayBytes width (words.take index))
    (arrayBytes width (words.drop (index + 1)) ++ after) value
  rw [List.length_append, length_arrayBytes, List.length_take, min_eq_left inside.le] at placed
  have laidOut : arrayBytes width words = arrayBytes width (words.take index) ++
      (wordBytes width value ++ arrayBytes width (words.drop (index + 1))) := by
    conv_lhs => rw [split, arrayBytes_append]
    rfl
  rw [← placed, laidOut]
  simp

/-- An array of bit vectors that fit their words is read as it was. -/
theorem wordAt_bitVecs {bits : Nat} {words : List (BitVec bits)} {word : BitVec bits}
    (before after : List (BitVec 8)) (fits : 2 ^ bits ≤ 256 ^ width)
    (present : words[index]? = some word) :
    wordAt width (before ++ (arrayBytes width (words.map BitVec.toNat) ++ after))
      (before.length + width * index) = some word.toNat := by
  have named : (words.map BitVec.toNat)[index]? = some word.toNat := by
    rw [List.getElem?_map, present, Option.map_some]
  rw [wordAt_array before after named, Nat.mod_eq_of_lt (Nat.lt_of_lt_of_le word.isLt fits)]

end DaveCC.Arith

/-!
## LEB128 numbers

Numbers as bytes of seven bits each, the lowest first, where every byte but the last has its
high bit set. The bytes of a number are written into a buffer of a fixed size; a number that
fits is read back with the count of its bytes.
-/

namespace DaveCC.Arith

/-- An unsigned number, in at most as many bytes as the buffer has. -/
def uleb128 : Nat → Nat → List (BitVec 8)
  | 0, _ => []
  | room + 1, value =>
    if value / 128 = 0 then [BitVec.ofNat 8 (value % 128)]
    else BitVec.ofNat 8 (value % 128 + 128) :: uleb128 room (value / 128)

/-- Whether the seven bits of a byte are all that is left of a signed number. -/
def isLastByte (value : ℤ) : Bool :=
  (value / 128 == 0 && value % 128 < 64) || (value / 128 == -1 && 64 ≤ value % 128)

/-- A signed number, in at most as many bytes as the buffer has. -/
def sleb128 : Nat → ℤ → List (BitVec 8)
  | 0, _ => []
  | room + 1, value =>
    if isLastByte value then [BitVec.ofInt 8 (value % 128)]
    else BitVec.ofInt 8 (value % 128 + 128) :: sleb128 room (value / 128)

/-- The unsigned number that bytes start with, and the count of its bytes. -/
def readUleb128 : List (BitVec 8) → Option (Nat × Nat)
  | [] => none
  | byte :: bytes =>
    if byte.toNat < 128 then some (byte.toNat, 1)
    else
      (readUleb128 bytes).map fun read => (byte.toNat - 128 + 128 * read.1, read.2 + 1)

/-- The signed number that bytes start with, and the count of its bytes. -/
def readSleb128 : List (BitVec 8) → Option (ℤ × Nat)
  | [] => none
  | byte :: bytes =>
    if byte.toNat < 64 then some (byte.toNat, 1)
    else if byte.toNat < 128 then some (byte.toNat - 128, 1)
    else
      (readSleb128 bytes).map fun read => (byte.toNat - 128 + 128 * read.1, read.2 + 1)

theorem readUleb128_append {room value : Nat} (fits : value < 128 ^ (room + 1))
    (rest : List (BitVec 8)) :
    readUleb128 (uleb128 (room + 1) value ++ rest) =
      some (value, (uleb128 (room + 1) value).length) := by
  induction room generalizing value with
  | zero =>
    rw [zero_add, pow_one] at fits
    have byte : (BitVec.ofNat 8 (value % 128)).toNat = value := by
      rw [BitVec.toNat_ofNat]
      omega
    rw [uleb128, if_pos (Nat.div_eq_of_lt fits), List.singleton_append, readUleb128, byte,
      if_pos fits]
    rfl
  | succ room ih =>
    rw [uleb128]
    split
    · next last =>
        have byte : (BitVec.ofNat 8 (value % 128)).toNat = value := by
          rw [BitVec.toNat_ofNat]
          omega
        rw [List.singleton_append, readUleb128, byte, if_pos (by omega)]
        rfl
    · have byte : (BitVec.ofNat 8 (value % 128 + 128)).toNat = value % 128 + 128 := by
        rw [BitVec.toNat_ofNat]
        omega
      have smaller : value / 128 < 128 ^ (room + 1) := by
        rw [pow_succ] at fits
        exact Nat.div_lt_of_lt_mul (by linarith)
      rw [List.cons_append, readUleb128, byte, if_neg (by omega), ih smaller, Option.map_some,
        List.length_cons]
      simp only [Option.some.injEq, Prod.mk.injEq, and_true]
      omega

variable {value : ℤ}

theorem toNat_ofInt_byte (least : 0 ≤ value) (most : value < 256) :
    ((BitVec.ofInt 8 value).toNat : ℤ) = value := by
  rw [BitVec.toNat_ofInt]
  omega

/-- The last byte of a signed number is read with its sign. -/
theorem readSleb128_last (last : isLastByte value = true) (rest : List (BitVec 8)) :
    readSleb128 (BitVec.ofInt 8 (value % 128) :: rest) = some (value, 1) := by
  have byte := toNat_ofInt_byte (show 0 ≤ value % 128 by omega) (by omega)
  simp only [isLastByte, Bool.or_eq_true, Bool.and_eq_true, beq_iff_eq, decide_eq_true_eq] at last
  rw [readSleb128]
  rcases last with ⟨quotient, small⟩ | ⟨quotient, large⟩
  · rw [if_pos (by omega)]
    simp only [Option.some.injEq, Prod.mk.injEq, and_true]
    omega
  · rw [if_neg (by omega), if_pos (by omega)]
    simp only [Option.some.injEq, Prod.mk.injEq, and_true]
    omega

theorem readSleb128_append {room : Nat} (least : -(64 * 128 ^ room) ≤ value)
    (most : value < 64 * 128 ^ room) (rest : List (BitVec 8)) :
    readSleb128 (sleb128 (room + 1) value ++ rest) =
      some (value, (sleb128 (room + 1) value).length) := by
  induction room generalizing value with
  | zero =>
    have last : isLastByte value = true := by
      simp only [isLastByte, Bool.or_eq_true, Bool.and_eq_true, beq_iff_eq, decide_eq_true_eq]
      omega
    rw [sleb128, if_pos last, List.singleton_append, readSleb128_last last]
    rfl
  | succ room ih =>
    rw [sleb128]
    split
    · next last =>
        rw [List.singleton_append, readSleb128_last last]
        rfl
    · have byte := toNat_ofInt_byte (show 0 ≤ value % 128 + 128 by omega) (by omega)
      have smaller := ih (show -(64 * 128 ^ room) ≤ value / 128 by omega) (by omega)
      rw [List.cons_append, readSleb128, if_neg (by omega), if_neg (by omega), smaller,
        Option.map_some, List.length_cons]
      simp only [Option.some.injEq, Prod.mk.injEq, and_true]
      omega

end DaveCC.Arith
