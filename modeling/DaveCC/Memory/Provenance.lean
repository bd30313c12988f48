import Mathlib.Data.Int.ModEq
import Mathlib.Data.Set.BooleanAlgebra
import Mathlib.Order.CompletePartialOrder

/-!
# Memory with provenance

Memory is a collection of objects, each a row of bytes at the offsets of a machine word.
A word that is an address carries the object it points into, and so does every byte of a
stored address. An object that nothing carries cannot be reached, and it stays that way as
long as nothing new is made to carry it.
-/

namespace DaveCC.Memory

/-- A word. As an address it is an offset in the object it carries. -/
structure Value (Object : Type*) where
  word : BitVec 64
  object : Option Object

/-- A byte of memory, with the object carried by the word it belongs to. -/
structure Cell (Object : Type*) where
  byte : BitVec 8
  object : Option Object

/-- The place of a byte: its object and its offset in it. -/
abbrev Location (Object : Type*) := Object × BitVec 64

abbrev Contents (Object : Type*) := Location Object → Cell Object

variable {Object : Type*} {object other : Object} {hidden region objects : Set Object}

namespace Value

/-- The sum of an address and a number. Two addresses have no sum. -/
def add (left right : Value Object) : Value Object where
  word := left.word + right.word
  object :=
    match left.object, right.object with
    | some object, none | none, some object => some object
    | _, _ => none

variable {value number : Value Object}

theorem add_number (isNumber : number.object = none) :
    value.add number = ⟨value.word + number.word, value.object⟩ := by
  cases carried : value.object <;> simp only [add, carried, isNumber]

theorem number_add (isNumber : number.object = none) :
    number.add value = ⟨number.word + value.word, value.object⟩ := by
  cases carried : value.object <;> simp only [add, carried, isNumber]

theorem add_carries {left right : Value Object} (carries : (left.add right).object = some object) :
    left.object = some object ∨ right.object = some object := by
  cases first : left.object <;> cases second : right.object <;>
    simp only [add, first, second, reduceCtorEq] at carries
  · exact Or.inr carries
  · exact Or.inl carries

end Value

/-- The `size` bytes of an object from an offset on. -/
def bytesAt (object : Object) (offset : BitVec 64) (size : Nat) : Set (Location Object) :=
  {location | location.1 = object ∧ ∃ index < size, location.2 = offset + BitVec.ofNat 64 index}

variable {length size : Nat}

theorem bytesAt_disjoint_of_ne {first second : BitVec 64} (apart : object ≠ other) :
    Disjoint (bytesAt object first length) (bytesAt other second size) := by
  rw [Set.disjoint_left]
  intro location inFirst inSecond
  exact apart (inFirst.1.symm.trans inSecond.1)

/-- The offset of a byte counted from a signed offset. -/
theorem ofInt_add_ofNat (offset : Int) (index : Nat) :
    BitVec.ofInt 64 offset + BitVec.ofNat 64 index = BitVec.ofInt 64 (offset + index) := by
  rw [← BitVec.ofInt_natCast, ← BitVec.ofInt_add]

/-- Runs of bytes that follow each other within the signed words have no byte in
common. -/
theorem bytesAt_disjoint_of_le {first second : Int} (follows : first + length ≤ second)
    (isWord : -2 ^ 63 ≤ first) (endIsWord : second + size < 2 ^ 63) :
    Disjoint (bytesAt object (BitVec.ofInt 64 first) length)
      (bytesAt other (BitVec.ofInt 64 second) size) := by
  rw [Set.disjoint_left]
  rintro location ⟨_, index, inFirst, atFirst⟩ ⟨_, position, inSecond, atSecond⟩
  have same := atFirst.symm.trans atSecond
  rw [ofInt_add_ofNat, ofInt_add_ofNat] at same
  have values := congrArg BitVec.toInt same
  rw [BitVec.toInt_ofInt, BitVec.toInt_ofInt, Int.bmod_eq_of_le (by omega) (by omega),
    Int.bmod_eq_of_le (by omega) (by omega)] at values
  omega

/-- The objects that the bytes of memory carry. -/
def carriedBy (contents : Contents Object) : Set Object :=
  {object | ∃ location, (contents location).object = some object}

/-- Only the bytes of the region may differ. -/
def ChangesOnly (region : Set (Location Object)) (before after : Contents Object) : Prop :=
  ∀ location, location ∉ region → after location = before location

/-- The bytes that differ carry nothing but the objects. -/
def BringsOnly (objects : Set Object) (before after : Contents Object) : Prop :=
  ∀ location, after location = before location ∨
    ∀ object, (after location).object = some object → object ∈ objects

theorem ChangesOnly.refl (region : Set (Location Object)) (contents : Contents Object) :
    ChangesOnly region contents contents :=
  fun _ _ => rfl

theorem BringsOnly.refl (objects : Set Object) (contents : Contents Object) :
    BringsOnly objects contents contents :=
  fun _ => Or.inl rfl

/-- Memory that carries no hidden object does not come to carry one from elsewhere. -/
theorem BringsOnly.disjoint_carriedBy {before after : Contents Object}
    (brings : BringsOnly objects before after) (known : Disjoint objects hidden)
    (avoids : Disjoint (carriedBy before) hidden) : Disjoint (carriedBy after) hidden := by
  rw [Set.disjoint_left] at known avoids ⊢
  rintro object ⟨location, carries⟩
  cases brings location with
  | inl same =>
    rw [same] at carries
    exact avoids ⟨location, carries⟩
  | inr new => exact known (new object carries)

end DaveCC.Memory
