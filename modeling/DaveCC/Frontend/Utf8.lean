import Mathlib.Data.BitVec
import Mathlib.Data.Nat.Bitwise

/-!
# UTF-8 in source lines

The decoder and the encoder of UTF-8 in `lex.c`, and the check of a source line. A position in
a line is what is left of it from there on.
-/

namespace DaveCC.Frontend.Utf8

def utf8Continuation (ch : BitVec 8) : Bool :=
  ch &&& 0xc0 == 0x80

/-- The number of bytes that the first one asks for, and its bits of the code point. -/
def leadByte (ch : ℕ) : Option (ℕ × ℕ) :=
  if 0xc2 ≤ ch ∧ ch ≤ 0xdf then some (2, ch &&& 0x1f)
  else if 0xe0 ≤ ch ∧ ch ≤ 0xef then some (3, ch &&& 0x0f)
  else if 0xf0 ≤ ch ∧ ch ≤ 0xf4 then some (4, ch &&& 0x07)
  else none

def appendContinuation (cp : ℕ) (cont : BitVec 8) : Option ℕ :=
  if utf8Continuation cont then some (cp <<< 6 ||| cont.toNat &&& 0x3f) else none

/-- The code point at the start of a text and the number of its bytes. -/
def decodeUtf8 : List (BitVec 8) → Option (ℕ × ℕ)
  | [] => none
  | ch :: rest =>
    if ch.toNat < 0x80 then some (ch.toNat, 1)
    else do
      let (needed, cp) ← leadByte ch.toNat
      if rest.length + 1 < needed then none
      else
        let cp ← (rest.take (needed - 1)).foldlM appendContinuation cp
        if needed = 3 ∧ cp < 0x800 ∨ needed = 4 ∧ cp < 0x10000 ∨ 0xd800 ≤ cp ∧ cp ≤ 0xdfff ∨
            0x10ffff < cp then none
        else some (cp, needed)

def continuation (cp : ℕ) : BitVec 8 :=
  .ofNat 8 (0x80 ||| cp &&& 0x3f)

def appendUTF8CodePoint (cp : ℕ) : List (BitVec 8) :=
  if cp ≤ 0x7f then [.ofNat 8 cp]
  else if cp ≤ 0x7ff then [.ofNat 8 (0xc0 ||| cp >>> 6), continuation cp]
  else if cp ≤ 0xffff then
    [.ofNat 8 (0xe0 ||| cp >>> 12), continuation (cp >>> 6), continuation cp]
  else
    [.ofNat 8 (0xf0 ||| cp >>> 18), continuation (cp >>> 12), continuation (cp >>> 6),
      continuation cp]

/-- A Unicode scalar value: no surrogate. -/
def IsScalar (cp : ℕ) : Prop :=
  cp ≤ 0x10ffff ∧ ¬(0xd800 ≤ cp ∧ cp ≤ 0xdfff)

theorem utf8Continuation_iff (ch : BitVec 8) :
    utf8Continuation ch = true ↔ 0x80 ≤ ch.toNat ∧ ch.toNat < 0xc0 := by
  revert ch
  decide

/-- The continuation bytes of a code point. -/
def tails (cp : ℕ) : ℕ → List (BitVec 8)
  | 0 => []
  | count + 1 => tails (cp / 64) count ++ [continuation cp]

@[simp] theorem length_tails (cp count : ℕ) : (tails cp count).length = count := by
  induction count generalizing cp with
  | zero => rfl
  | succ count ih => simp [tails, ih]

theorem or_tag {bits tag rest : ℕ} (multiple : 2 ^ bits ∣ tag) (small : rest < 2 ^ bits) :
    tag ||| rest = tag + rest := by
  obtain ⟨high, rfl⟩ := multiple
  exact (Nat.two_pow_add_eq_or_of_lt small high).symm

theorem toNat_continuation (cp : ℕ) : (continuation cp).toNat = 0x80 + cp % 64 := by
  have low : cp &&& 0x3f = cp % 64 := Nat.and_two_pow_sub_one_eq_mod _ 6
  rw [continuation, low, @or_tag 6 0x80 _ ⟨2, rfl⟩ (by omega), BitVec.toNat_ofNat]
  omega

/-- The loop over the continuation bytes accepts those of the code point it ends with. -/
theorem foldlM_appendContinuation {conts : List (BitVec 8)} {lead cp : ℕ} :
    conts.foldlM appendContinuation lead = some cp ↔
      conts = tails cp conts.length ∧ cp / 64 ^ conts.length = lead := by
  induction conts using List.reverseRecOn generalizing cp with
  | nil => simp [tails, eq_comm]
  | append_singleton conts cont ih =>
    have low : cont.toNat &&& 0x3f = cont.toNat % 64 := Nat.and_two_pow_sub_one_eq_mod _ 6
    have joined (next : ℕ) : next <<< 6 ||| cont.toNat % 64 = next * 64 + cont.toNat % 64 := by
      rw [← Nat.shiftLeft_add_eq_or_of_lt (Nat.mod_lt _ (by decide)), Nat.shiftLeft_eq]
    simp only [List.foldlM_append, List.foldlM_cons, List.foldlM_nil, List.length_append,
      List.length_singleton, tails, List.append_singleton_inj, Option.bind_eq_bind,
      Option.bind_eq_some_iff, ih, appendContinuation, low, joined, utf8Continuation_iff,
      Nat.pow_succ', ← Nat.div_div_eq_div_mul, Option.pure_def, Option.some.injEq,
      Option.ite_none_right_eq_some]
    constructor
    · rintro ⟨next, ⟨isTails, isLead⟩, _, ⟨byte, rfl⟩, rfl⟩
      have quotient : (next * 64 + cont.toNat % 64) / 64 = next := by omega
      rw [quotient]
      refine ⟨⟨isTails, BitVec.eq_of_toNat_eq ?_⟩, isLead⟩
      rw [toNat_continuation]
      omega
    · rintro ⟨⟨isTails, rfl⟩, isLead⟩
      refine ⟨cp / 64, ⟨isTails, isLead⟩, _, ⟨?_, rfl⟩, ?_⟩ <;> rw [toNat_continuation] <;> omega

variable {text : List (BitVec 8)} {cp bytes : ℕ}

/-- How many bytes follow the first one of a code point, and the tag of the first one. -/
def IsClass (cp count tag : ℕ) : Prop :=
  count = 0 ∧ tag = 0 ∧ cp < 0x80 ∨ count = 1 ∧ tag = 0xc0 ∧ 0x80 ≤ cp ∧ cp < 0x800 ∨
    count = 2 ∧ tag = 0xe0 ∧ 0x800 ≤ cp ∧ cp < 0x10000 ∨ count = 3 ∧ tag = 0xf0 ∧ 0x10000 ≤ cp

theorem appendUTF8CodePoint_eq {count tag : ℕ} (top : cp ≤ 0x10ffff)
    (isClass : IsClass cp count tag) :
    appendUTF8CodePoint cp = .ofNat 8 (tag + cp / 64 ^ count) :: tails cp count := by
  simp only [appendUTF8CodePoint, Nat.shiftRight_eq_div_pow]
  rcases isClass with ⟨rfl, rfl, high⟩ | ⟨rfl, rfl, low, high⟩ | ⟨rfl, rfl, low, high⟩ | ⟨rfl, rfl, low⟩
  · rw [if_pos (by omega), pow_zero, Nat.div_one, Nat.zero_add]
    rfl
  · rw [if_neg (by omega), if_pos (by omega),
      ← @or_tag 5 0xc0 (cp / 64 ^ 1) ⟨6, rfl⟩ (by omega)]
    rfl
  · rw [if_neg (by omega), if_neg (by omega), if_pos (by omega),
      ← @or_tag 4 0xe0 (cp / 64 ^ 2) ⟨14, rfl⟩ (by omega)]
    rfl
  · rw [if_neg (by omega), if_neg (by omega), if_neg (by omega),
      ← @or_tag 3 0xf0 (cp / 64 ^ 3) ⟨30, rfl⟩ (by omega), show cp / 2 ^ 12 = cp / 64 / 64 by omega]
    rfl

theorem leadByte_eq_some_iff {ch needed lead : ℕ} : leadByte ch = some (needed, lead) ↔
    0xc2 ≤ ch ∧ ch ≤ 0xdf ∧ needed = 2 ∧ ch = 0xc0 + lead ∨
      0xe0 ≤ ch ∧ ch ≤ 0xef ∧ needed = 3 ∧ ch = 0xe0 + lead ∨
      0xf0 ≤ ch ∧ ch ≤ 0xf4 ∧ needed = 4 ∧ ch = 0xf0 + lead := by
  rw [leadByte, show ch &&& 0x1f = ch % 32 from Nat.and_two_pow_sub_one_eq_mod _ 5,
    show ch &&& 0x0f = ch % 16 from Nat.and_two_pow_sub_one_eq_mod _ 4,
    show ch &&& 0x07 = ch % 8 from Nat.and_two_pow_sub_one_eq_mod _ 3]
  split_ifs <;> simp <;> omega

theorem decodeUtf8_cons_iff {ch : BitVec 8} {rest : List (BitVec 8)} :
    decodeUtf8 (ch :: rest) = some (cp, bytes) ↔ IsScalar cp ∧ ∃ count tag, IsClass cp count tag ∧
      ch.toNat = tag + cp / 64 ^ count ∧ tails cp count <+: rest ∧ bytes = count + 1 := by
  rw [decodeUtf8, ite_eq_iff]
  simp only [Option.bind_eq_bind, Option.bind_eq_some_iff, Option.ite_none_left_eq_some,
    Option.some.injEq, Prod.mk.injEq, Prod.exists, leadByte_eq_some_iff, foldlM_appendContinuation]
  constructor
  · rintro (⟨ascii, rfl, rfl⟩ |
      ⟨-, needed, lead, isLead, enough, value, ⟨isTails, isQuotient⟩, inRange, rfl, rfl⟩)
    · exact ⟨⟨by omega, by omega⟩, 0, 0, .inl ⟨rfl, rfl, ascii⟩, by simp, List.nil_prefix, rfl⟩
    rw [List.length_take_of_le (by omega)] at isTails isQuotient
    refine ⟨⟨by omega, by omega⟩, needed - 1, ch.toNat - lead, ?_, ?_, ?_, by omega⟩
    · unfold IsClass
      rcases isLead with ⟨low, high, rfl, isLead⟩ | ⟨low, high, rfl, isLead⟩ |
        ⟨low, high, rfl, isLead⟩ <;> simp at isQuotient <;> omega
    · rw [isQuotient]
      omega
    · rw [← isTails]
      exact List.take_prefix _ _
  · rintro ⟨scalar, count, tag, isClass, isFirst, ⟨suffix, rfl⟩, rfl⟩
    have ⟨top, noSurrogate⟩ := scalar
    have taken : (tails cp count ++ suffix).take (count + 1 - 1) = tails cp count :=
      List.take_left' (length_tails cp count)
    rcases isClass with ⟨rfl, rfl, ascii⟩ | isClass
    · rw [Nat.zero_add, pow_zero, Nat.div_one] at isFirst
      exact .inl ⟨by omega, isFirst, rfl⟩
    refine .inr ⟨?_, count + 1, cp / 64 ^ count, ?_, ?_, cp, ?_, by omega, rfl, rfl⟩
    · rcases isClass with ⟨rfl, rfl, size⟩ | ⟨rfl, rfl, size⟩ | ⟨rfl, rfl, size⟩ <;> omega
    · rcases isClass with ⟨rfl, rfl, size⟩ | ⟨rfl, rfl, size⟩ | ⟨rfl, rfl, size⟩ <;>
        simp at isFirst ⊢ <;> omega
    · simp
    · rw [taken, length_tails]
      exact ⟨rfl, rfl⟩

theorem encoded_of_decodeUtf8 (decoded : decodeUtf8 text = some (cp, bytes)) : IsScalar cp ∧
    appendUTF8CodePoint cp <+: text ∧ bytes = (appendUTF8CodePoint cp).length := by
  cases text with
  | nil => cases decoded
  | cons ch rest =>
    obtain ⟨scalar, count, tag, isClass, isFirst, isTails, rfl⟩ := decodeUtf8_cons_iff.mp decoded
    rw [appendUTF8CodePoint_eq scalar.1 isClass, ← isFirst, BitVec.ofNat_toNat, BitVec.setWidth_eq]
    exact ⟨scalar, List.cons_prefix_cons.mpr ⟨rfl, isTails⟩, by simp⟩

theorem decodeUtf8_encoded (scalar : IsScalar cp) (suffix : List (BitVec 8)) :
    decodeUtf8 (appendUTF8CodePoint cp ++ suffix) =
      some (cp, (appendUTF8CodePoint cp).length) := by
  obtain ⟨count, tag, isClass⟩ : ∃ count tag, IsClass cp count tag := by
    unfold IsClass
    grind
  have top := scalar.1
  have byte : tag + cp / 64 ^ count < 256 := by
    rcases isClass with ⟨rfl, rfl, size⟩ | ⟨rfl, rfl, size⟩ | ⟨rfl, rfl, size⟩ | ⟨rfl, rfl, size⟩ <;>
      simp <;> omega
  rw [appendUTF8CodePoint_eq top isClass, List.cons_append, decodeUtf8_cons_iff,
    BitVec.toNat_ofNat, Nat.mod_eq_of_lt byte]
  exact ⟨scalar, count, tag, isClass, rfl, List.prefix_append _ _, by simp⟩

/-- The decoder accepts exactly what the encoder writes for the scalar values, and no other
bytes. -/
theorem decodeUtf8_eq_some_iff : decodeUtf8 text = some (cp, bytes) ↔
    IsScalar cp ∧ appendUTF8CodePoint cp <+: text ∧
      bytes = (appendUTF8CodePoint cp).length := by
  constructor
  · exact encoded_of_decodeUtf8
  · rintro ⟨scalar, ⟨suffix, rfl⟩, rfl⟩
    exact decodeUtf8_encoded scalar suffix

theorem decodeUtf8_pos (decoded : decodeUtf8 text = some (cp, bytes)) : 0 < bytes := by
  obtain ⟨-, -, rfl⟩ := encoded_of_decodeUtf8 decoded
  rw [appendUTF8CodePoint]
  split_ifs <;> simp

/-- The loop of `ValidateUTF8SourceLine` from a position: where it reports an error. -/
def validateUTF8From (i : ℕ) : List (BitVec 8) → Option ℕ
  | [] => none
  | ch :: rest =>
    if ch.toNat < 0x80 then validateUTF8From (i + 1) rest
    else
      match _decoded : decodeUtf8 (ch :: rest) with
      | none => some i
      | some (_, bytes) => validateUTF8From (i + bytes) ((ch :: rest).drop bytes)
termination_by text => text.length
decreasing_by
  · simp
  · simp only [List.length_drop, List.length_cons]
    have := decodeUtf8_pos _decoded
    omega

def validateUTF8SourceLine (cxx23 : Bool) (line : List (BitVec 8)) : Option ℕ :=
  if cxx23 then validateUTF8From 0 line else none

/-- The bytes of a sequence of characters. -/
def utf8Text (cps : List ℕ) : List (BitVec 8) :=
  cps.flatMap appendUTF8CodePoint

/-- Whole characters stand up to the end of the text or to the error, where none starts. -/
def WholeUpTo (i : ℕ) (text : List (BitVec 8)) (error : Option ℕ) : Prop :=
  ∃ cps rest, (∀ cp ∈ cps, IsScalar cp) ∧ text = utf8Text cps ++ rest ∧
    (∀ cp, IsScalar cp → ¬appendUTF8CodePoint cp <+: rest) ∧
    error = if rest = [] then none else some (i + (utf8Text cps).length)

theorem wholeUpTo_stop (i : ℕ) (decoded : decodeUtf8 text = none) :
    WholeUpTo i text (if text = [] then none else some i) := by
  refine ⟨[], text, by simp, rfl, ?_, rfl⟩
  rintro cp scalar ⟨suffix, rfl⟩
  cases decoded.symm.trans (decodeUtf8_encoded scalar suffix)

theorem wholeUpTo_step {i : ℕ} {error : Option ℕ}
    (decoded : decodeUtf8 text = some (cp, bytes))
    (after : WholeUpTo (i + bytes) (text.drop bytes) error) : WholeUpTo i text error := by
  obtain ⟨scalar, ⟨suffix, rfl⟩, rfl⟩ := encoded_of_decodeUtf8 decoded
  obtain ⟨cps, rest, scalars, isText, stops, rfl⟩ := after
  rw [List.drop_left] at isText
  refine ⟨cp :: cps, rest, by simpa [scalar] using scalars, ?_, stops, ?_⟩ <;>
    simp [utf8Text, isText, Nat.add_assoc]

theorem wholeUpTo_validateUTF8From (i : ℕ) (text : List (BitVec 8)) :
    WholeUpTo i text (validateUTF8From i text) := by
  fun_induction validateUTF8From i text with
  | case1 i => exact wholeUpTo_stop i rfl
  | case2 i ch rest ascii ih => exact wholeUpTo_step (by rw [decodeUtf8, if_pos ascii]) ih
  | case3 i ch rest _ decoded => exact wholeUpTo_stop i decoded
  | case4 i ch rest _ cp bytes decoded ih => exact wholeUpTo_step decoded ih

/-- In C++23 the check passes over whole characters, up to the end of the line or to the error
it reports, where no character starts. -/
theorem validateUTF8SourceLine_spec (line : List (BitVec 8)) :
    WholeUpTo 0 line (validateUTF8SourceLine true line) :=
  wholeUpTo_validateUTF8From 0 line

end DaveCC.Frontend.Utf8
