import DaveCC.Backend.IntegerSemantics

/-!
# Integer instructions as terms

An optimisation replaces an instruction by an existing node, by a constant of the
pool or by new instructions over these. All three are terms. The IR computes at the
width of a type's storage: a `_BitInt` narrower than its storage is brought back to
its width by instructions of its own.
-/

namespace DaveCC.Optimization

open DaveCC.Arith DaveCC.Backend

variable [Compiler]

/-- The format of an integer type of one to eight bytes in its storage. -/
def storageFormat (type : TypeRecord) : IntFormat :=
  if valid : 0 < type.size ∧ type.size ≤ 8 then
    { bits := type.size * 8
      isUnsigned := type.isUnsigned
      positive := by omega
      fits := by omega }
  else addressFormat

/-- A value over the nodes of a function. -/
inductive Term where
  | node (id : NodeId)
  | constant (type : TypeRecord) (value : BitVec 64)
  | operation (opcode : IROpcode) (type : TypeRecord) (left right : Term)
  deriving DecidableEq, Repr

/-- The words that the nodes of a function have at some point of an execution. -/
abbrev Words := NodeId → Option (BitVec 64)

namespace Term

def typeIn (gen : Generator) : Term → Option TypeRecord
  | node id => (gen.nodes id).type
  | constant type _ => some type
  | operation _ type _ _ => some type

/-- The format of the word that holds a term's value. -/
def format (gen : Generator) (term : Term) : IntFormat :=
  (term.typeIn gen).elim addressFormat storageFormat

/-- The value of a term. A constant has the payload that its node carries. -/
def value (gen : Generator) (words : Words) : Term → Option (BitVec 64)
  | node id => if (gen.nodes id).opcode.isConst then some (gen.nodes id).ivalue else words id
  | constant _ payload => some payload
  | operation opcode type left right => do
      let a ← left.value gen words
      let b ← right.value gen words
      opcode.integerValue (storageFormat type) (left.format gen) a b

end Term

/-- `IRCheckpointBetween`. A node outside every block, such as a constant, is not in
the list of its block. -/
def irCheckpointBetween (gen : Generator) (earlier later : NodeId) : Bool :=
  (gen.nodes earlier).block == (gen.nodes later).block &&
    ((((gen.block (gen.nodes earlier).block).instructions.dropWhile (· != earlier)).tail.takeWhile
      (· != later)).any fun id => (gen.nodes id).opcode == .observableCheckpoint)

/-- Two words with the same bits at a format's width. -/
def SameAt (format : IntFormat) (old new : BitVec 64) : Prop :=
  format.read old = format.read new

/-- Every value that the old computation has, the new one has at this width. The new
one may have a value where the old one has none. -/
def Preserves (format : IntFormat) (old new : Option (BitVec 64)) : Prop :=
  ∀ word, old = some word → ∃ other, new = some other ∧ SameAt format word other

section Format

variable {type : TypeRecord}

theorem storageFormat_of_size (positive : 0 < type.size) (small : type.size ≤ 8) :
    (storageFormat type).bits = type.size * 8 ∧
      (storageFormat type).isUnsigned = type.isUnsigned := by
  unfold storageFormat
  rw [dif_pos ⟨positive, small⟩]
  exact ⟨rfl, rfl⟩

end Format

end DaveCC.Optimization
