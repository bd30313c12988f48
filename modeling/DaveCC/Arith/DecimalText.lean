import Mathlib.Data.BitVec
import Mathlib.Data.Nat.Digits.Lemmas

/-!
# Decimal text

Numbers as text: the decimal digits of a number as characters, and the value that a sequence
of characters has when each is taken for a digit.
-/

namespace DaveCC.Arith

/-- The character of a digit. -/
def digitChar (digit : ℕ) : BitVec 8 :=
  BitVec.ofNat 8 (48 + digit)

/-- The digits of a natural number, the highest first. -/
def decimalDigits (value : ℕ) : List ℕ :=
  if value = 0 then [0] else (Nat.digits 10 value).reverse

def naturalText (value : ℕ) : List (BitVec 8) :=
  (decimalDigits value).map digitChar

/-- The text of an integer, with a sign when it is negative. -/
def integerText : ℤ → List (BitVec 8)
  | .ofNat value => naturalText value
  | .negSucc value => 45 :: naturalText (value + 1)

/-- The value of characters after a value, each taken for a digit. -/
def digitsValue (start : ℤ) (text : List (BitVec 8)) : ℤ :=
  text.foldl (fun value char => value * 10 + char.toInt - 48) start

variable {value digit : ℕ}

theorem decimalDigits_lt (inside : digit ∈ decimalDigits value) : digit < 10 := by
  rw [decimalDigits] at inside
  split at inside
  · rw [List.mem_singleton.mp inside]
    exact Nat.zero_lt_succ 9
  · exact Nat.digits_lt_base (by decide) (List.mem_reverse.mp inside)

theorem decimalDigits_ne_nil (value : ℕ) : decimalDigits value ≠ [] := by
  rw [decimalDigits]
  split
  · exact List.cons_ne_nil _ _
  · next positive =>
      exact fun empty => positive (Nat.digits_eq_nil_iff_eq_zero.mp (List.reverse_eq_nil_iff.mp empty))

variable {count : ℕ}

theorem length_decimalDigits_le_iff (positive : 0 < count) :
    (decimalDigits value).length ≤ count ↔ value < 10 ^ count := by
  rw [decimalDigits]
  split
  · next isZero =>
      subst isZero
      exact iff_of_true positive (Nat.pow_pos (Nat.zero_lt_succ 9))
  · rw [List.length_reverse]
    exact Nat.digits_length_le_iff (by decide) _

theorem toInt_digitChar (small : digit < 10) : (digitChar digit).toInt = 48 + digit := by
  rw [digitChar, BitVec.toInt_ofNat', Int.bmod_def]
  push_cast
  split
  all_goals omega

theorem digitsValue_append (start : ℤ) (text other : List (BitVec 8)) :
    digitsValue start (text ++ other) = digitsValue (digitsValue start text) other :=
  List.foldl_append

theorem digitsValue_digitChars (start : ℤ) {digits : List ℕ} (small : ∀ digit ∈ digits, digit < 10) :
    digitsValue start (digits.map digitChar) =
      start * 10 ^ digits.length + (Nat.ofDigits 10 digits.reverse : ℕ) := by
  induction digits generalizing start with
  | nil => simp [digitsValue]
  | cons digit digits ih =>
    have step : digitsValue start ((digit :: digits).map digitChar) =
        digitsValue (start * 10 + digit) (digits.map digitChar) := by
      rw [List.map_cons, digitsValue, List.foldl_cons, toInt_digitChar (small digit List.mem_cons_self)]
      congr 1
      ring
    rw [step, ih _ fun digit inside => small digit (List.mem_cons_of_mem _ inside),
      List.length_cons, List.reverse_cons, Nat.ofDigits_append, List.length_reverse,
      Nat.ofDigits_singleton]
    push_cast
    ring

theorem digitsValue_naturalText (start : ℤ) (value : ℕ) :
    digitsValue start (naturalText value) = start * 10 ^ (naturalText value).length + value := by
  rw [naturalText, digitsValue_digitChars start fun _ => decimalDigits_lt, List.length_map]
  congr 2
  rw [decimalDigits]
  split
  · next isZero => rw [isZero]; rfl
  · rw [List.reverse_reverse, Nat.ofDigits_digits]

theorem naturalText_ne_nil (value : ℕ) : naturalText value ≠ [] :=
  fun empty => decimalDigits_ne_nil value (List.map_eq_nil_iff.mp empty)

theorem length_naturalText_le_iff (positive : 0 < count) :
    (naturalText value).length ≤ count ↔ value < 10 ^ count := by
  rw [naturalText, List.length_map]
  exact length_decimalDigits_le_iff positive

theorem lt_pow_length_naturalText (value : ℕ) : value < 10 ^ (naturalText value).length :=
  (length_naturalText_le_iff (List.length_pos_iff.mpr (naturalText_ne_nil value))).mp le_rfl

/-- The characters of a natural number are those of digits. -/
theorem mem_naturalText {char : BitVec 8} (inside : char ∈ naturalText value) :
    ∃ digit < 10, char = digitChar digit := by
  rcases List.mem_map.mp inside with ⟨digit, isDigit, rfl⟩
  exact ⟨digit, decimalDigits_lt isDigit, rfl⟩

end DaveCC.Arith
