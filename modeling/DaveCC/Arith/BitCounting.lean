import Mathlib.Data.BitVec
import Mathlib.Data.Nat.Bitwise
import Mathlib.Data.Nat.Size
import Mathlib.Tactic.Linarith

/-!
# Counting bits

The leading zeros, trailing zeros and set bits of a bit vector, with the
recurrences that loops over the bits follow.
-/

namespace DaveCC.Arith

/-- The clear positions below `width` before the first set one, from the top. -/
def clearFromTop (bit : Nat → Bool) : Nat → Nat
  | 0 => 0
  | width + 1 => if bit width then 0 else clearFromTop bit width + 1

/-- The clear positions from `start` before the first set one, `count` at most. -/
def clearFrom (bit : Nat → Bool) (start : Nat) : Nat → Nat
  | 0 => 0
  | count + 1 => if bit start then 0 else clearFrom bit (start + 1) count + 1

/-- The number of leading clear bits. -/
def leadingZeros {width : Nat} (value : BitVec width) : Nat :=
  clearFromTop value.getLsbD width

/-- The number of trailing clear bits. -/
def trailingZeros {width : Nat} (value : BitVec width) : Nat :=
  clearFrom value.getLsbD 0 width

/-- The number of set bits. -/
def populationCount {width : Nat} (value : BitVec width) : Nat :=
  value.toNat.bits.count true

/-- Only the bits below the width matter. -/
theorem clearFromTop_congr {left right : Nat → Bool} :
    ∀ {width : Nat}, (∀ index < width, left index = right index) →
      clearFromTop left width = clearFromTop right width
  | 0, _ => rfl
  | width + 1, agree => by
    rw [clearFromTop, clearFromTop, agree width (Nat.lt_succ_self width),
      clearFromTop_congr fun index below => agree index (Nat.lt_succ_of_lt below)]

theorem clearFrom_congr {left right : Nat → Bool} :
    ∀ {start count : Nat}, (∀ index < start + count, left index = right index) →
      clearFrom left start count = clearFrom right start count
  | _, 0, _ => rfl
  | start, count + 1, agree => by
    rw [clearFrom, clearFrom, agree start (by omega),
      clearFrom_congr fun index below => agree index (by omega)]

/-- Clearing the lowest set bit of a number removes one set bit. -/
theorem count_bits_land_pred :
    ∀ {number : Nat}, number ≠ 0 →
      (number &&& (number - 1)).bits.count true + 1 = number.bits.count true := by
  intro number
  induction number using Nat.binaryRec with
  | zero => exact fun nonzero => absurd rfl nonzero
  | bit low high ih =>
    intro nonzero
    cases low with
    | true =>
      have pred : Nat.bit true high - 1 = Nat.bit false high := by
        simp [Nat.bit_val]
      have masked : Nat.bit true high &&& Nat.bit false high = Nat.bit false high := by
        rw [Nat.land_bit, Nat.and_self]
        rfl
      rw [pred, masked, Nat.bits_append_bit high true (fun _ => rfl)]
      rcases Nat.eq_zero_or_pos high with zero | positive
      · simp [zero]
      · rw [Nat.bits_append_bit high false (by omega)]
        simp
    | false =>
      have highNonzero : high ≠ 0 := by
        rintro rfl
        exact nonzero rfl
      have pred : Nat.bit false high - 1 = Nat.bit true (high - 1) := by
        simp only [Nat.bit_val, Bool.toNat_false, Bool.toNat_true]
        omega
      rw [pred, Nat.land_bit, Bool.false_and,
        Nat.bits_append_bit high false (fun zero => absurd zero highNonzero)]
      have step := ih highNonzero
      rcases Nat.eq_zero_or_pos (high &&& (high - 1)) with zero | positive
      · rw [zero] at step ⊢
        simpa using step
      · rw [Nat.bits_append_bit _ _ (by omega)]
        simpa using step

theorem populationCount_le {width : Nat} (value : BitVec width) :
    populationCount value ≤ width := by
  refine le_trans List.count_le_length ?_
  rw [Nat.size_eq_bits_len, Nat.size_le]
  exact value.isLt

theorem populationCount_pred {width : Nat} {value : BitVec width} (nonzero : value ≠ 0) :
    populationCount (value &&& (value - BitVec.ofNat width 1)) + 1 = populationCount value := by
  have positive : value.toNat ≠ 0 := by
    rw [Ne, ← BitVec.toNat_inj] at nonzero
    simpa using nonzero
  have wide : 0 < width := by
    rcases Nat.eq_zero_or_pos width with rfl | wide
    · have bound := value.isLt
      omega
    · exact wide
  have pred : (value - BitVec.ofNat width 1).toNat = value.toNat - 1 := by
    rw [BitVec.toNat_sub_of_le, BitVec.toNat_one wide]
    rw [BitVec.le_def, BitVec.toNat_one wide]
    omega
  rw [populationCount, BitVec.toNat_and, pred]
  exact count_bits_land_pred positive

end DaveCC.Arith

/-!
## Positions of the set bits

A bit vector as the ascending list of the positions of its set bits. The trailing zeros
are the first of them, clearing the lowest set bit removes it from the list, and the list
is as long as the population count says.
-/

namespace DaveCC.Arith

variable {width : Nat}

/-- The positions of the set bits, ascending. -/
def setPositions (value : BitVec width) : List Nat :=
  (List.range width).filter value.getLsbD

variable {value : BitVec width} {position : Nat}

@[simp] theorem mem_setPositions :
    position ∈ setPositions value ↔ value.getLsbD position = true := by
  rw [setPositions, List.mem_filter, List.mem_range, and_iff_right_iff_imp]
  exact BitVec.lt_of_getLsbD

theorem pairwise_setPositions (value : BitVec width) : (setPositions value).Pairwise (· < ·) :=
  List.pairwise_lt_range.filter _

@[simp] theorem setPositions_zero : setPositions (0 : BitVec width) = [] := by
  apply List.eq_nil_iff_forall_not_mem.mpr
  intro position
  simp

/-! ## The lowest set bit -/

/-- The search for a set bit passes over clear bits, and ends at a set one when there is
one. -/
theorem clearFrom_spec (bit : Nat → Bool) :
    ∀ {start count : Nat},
      (∀ position, start ≤ position → position < start + clearFrom bit start count →
        bit position = false) ∧
      (clearFrom bit start count < count → bit (start + clearFrom bit start count) = true) ∧
      clearFrom bit start count ≤ count
  | start, 0 => ⟨fun position from_start below => by simp [clearFrom] at below; omega,
      fun below => absurd below (Nat.not_lt_zero _), Nat.le_refl _⟩
  | start, count + 1 => by
    rw [clearFrom]
    cases isSet : bit start with
    | true =>
      refine ⟨fun position fromStart below => ?_, fun _ => isSet, Nat.zero_le _⟩
      simp only [if_true] at below
      omega
    | false =>
      have ⟨clear, ends, bounded⟩ := @clearFrom_spec bit (start + 1) count
      have shift : start + (clearFrom bit (start + 1) count + 1) =
          start + 1 + clearFrom bit (start + 1) count := by omega
      simp only [Bool.false_eq_true, if_false, shift]
      refine ⟨?_, fun below => ends (by omega), by omega⟩
      intro position fromStart below
      rcases Nat.eq_or_lt_of_le fromStart with rfl | after
      · exact isSet
      · exact clear position after below

theorem getLsbD_of_lt_trailingZeros (below : position < trailingZeros value) :
    value.getLsbD position = false := by
  apply (clearFrom_spec value.getLsbD).1 position (Nat.zero_le _)
  rwa [Nat.zero_add]

/-- The bit after the trailing zeros of a nonzero value is set. -/
theorem getLsbD_trailingZeros (nonzero : value ≠ 0) :
    value.getLsbD (trailingZeros value) = true := by
  have ⟨clear, ends, bounded⟩ := @clearFrom_spec value.getLsbD 0 width
  rw [Nat.zero_add] at clear ends
  rcases Nat.lt_or_eq_of_le bounded with inside | outside
  · exact ends inside
  · absurd nonzero
    apply BitVec.eq_of_getLsbD_eq
    intro position below
    have isClear := clear position (Nat.zero_le _) (by omega)
    simpa using isClear

/-- Below the lowest set bit the predecessor has ones, above it the same bits. -/
theorem getLsbD_pred (value : BitVec width) (position : Nat) :
    (value - BitVec.ofNat width 1).getLsbD position =
      (decide (position < width) &&
        !(value.getLsbD position ^^ decide (∃ lower < position, value.getLsbD lower = true))) := by
  rw [← BitVec.not_neg, BitVec.getLsbD_not, BitVec.getLsbD_neg]
  by_cases inside : position < width <;> simp [inside]

theorem getLsbD_and_pred (nonzero : value ≠ 0) (position : Nat) :
    (value &&& (value - BitVec.ofNat width 1)).getLsbD position =
      (value.getLsbD position && decide (position ≠ trailingZeros value)) := by
  have isSet := getLsbD_trailingZeros nonzero
  rw [BitVec.getLsbD_and, getLsbD_pred]
  cases bit : value.getLsbD position with
  | false => rfl
  | true =>
    have above : (∃ lower < position, value.getLsbD lower = true) ↔
        position ≠ trailingZeros value := by
      constructor
      · rintro ⟨lower, below, set⟩ rfl
        exact Bool.false_ne_true ((getLsbD_of_lt_trailingZeros below).symm.trans set)
      · intro ne
        refine ⟨trailingZeros value, lt_of_le_of_ne (Nat.le_of_not_lt fun below => ?_) ne.symm, isSet⟩
        exact Bool.false_ne_true ((getLsbD_of_lt_trailingZeros below).symm.trans bit)
    simp [above, BitVec.lt_of_getLsbD bit]

/-- The trailing zeros are the first position, and clearing the lowest set bit gives the
others. -/
theorem setPositions_of_ne_zero (nonzero : value ≠ 0) :
    setPositions value =
      trailingZeros value :: setPositions (value &&& (value - BitVec.ofNat width 1)) := by
  apply List.Pairwise.eq_of_mem_iff (r := (· < ·)) (pairwise_setPositions value)
  · rw [List.pairwise_cons]
    refine ⟨?_, pairwise_setPositions _⟩
    intro position inside
    rw [mem_setPositions, getLsbD_and_pred nonzero, Bool.and_eq_true, decide_eq_true_iff] at inside
    by_contra below
    have := getLsbD_of_lt_trailingZeros (show position < trailingZeros value by omega)
    rw [this] at inside
    exact Bool.false_ne_true inside.1
  · intro position
    rw [List.mem_cons, mem_setPositions, mem_setPositions, getLsbD_and_pred nonzero,
      Bool.and_eq_true, decide_eq_true_iff]
    constructor
    · intro isSet
      exact (eq_or_ne position (trailingZeros value)).imp id fun ne => ⟨isSet, ne⟩
    · intro inside
      rcases inside with rfl | inside
      · exact getLsbD_trailingZeros nonzero
      · exact inside.1

theorem length_setPositions (value : BitVec width) :
    (setPositions value).length = populationCount value := by
  generalize count : populationCount value = number
  induction number generalizing value with
  | zero =>
    rcases eq_or_ne value 0 with rfl | nonzero
    · rw [setPositions_zero, List.length_nil]
    · have := populationCount_pred nonzero
      omega
  | succ number ih =>
    rcases eq_or_ne value 0 with rfl | nonzero
    · have : populationCount (0 : BitVec width) = 0 := by simp [populationCount]
      omega
    · have := populationCount_pred nonzero
      rw [setPositions_of_ne_zero nonzero, List.length_cons, ih _ (by omega)]

end DaveCC.Arith
