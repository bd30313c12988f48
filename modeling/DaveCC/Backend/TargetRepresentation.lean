import DaveCC.Backend.Retargeting
import DaveCC.Backend.RunInsertion

/-!
# The invariant of a target generator

The users of instructions are right, the index of symbols finds the instructions that
define them, the code list represents a sequence of live instructions, and the ends of
the blocks delimit runs of it. An instruction that enters the list keeps all of this.
-/

namespace DaveCC.Backend.TargetGenerator

open DaveCC.Container

/-- The first and the last symbol of the list. -/
def symbolSpan (target : TargetGenerator) : CodeSpan where
  code := target.firstSymbol
  endCode := target.lastSymbol

/-- The ends of every block delimit its run, and no two runs share an instruction. An
instruction that names a block is in its run. -/
def Blocked (target : TargetGenerator) (order : List TargetId) : Prop :=
  ∃ owner, (∀ block, (target.spans block).Delimits order owner block) ∧
    ∀ id ∈ order, ∀ block, target.blockOf id = some block → owner id = some block

/-- The code list represents a sequence of live instructions, divided into runs. -/
structure Arranged (target : TargetGenerator) (order : List TargetId) : Prop where
  list : target.code.Represents order
  live : ∀ id ∈ order, target.Live id
  detached : ∀ id, id ∉ order → target.Live id → target.code.Detached id ∧ target.blockOf id = none
  symbols : target.symbolSpan.Within order
  blocks : target.Blocked order

/-- The index of symbols finds exactly the instructions that define them. -/
structure Indexed (target : TargetGenerator) : Prop where
  valid : target.symbolIndex.Valid hashTargetSymbol
  find_iff : ∀ symbol id, target.symbolIndex.find hashTargetSymbol symbol = some id ↔
    target.Live id ∧ (target.instructions id).opcode = .symbol ∧
      (target.instructions id).symbol = some symbol

/-- The invariant of a target generator. -/
structure Consistent (target : TargetGenerator) : Prop where
  numbered : target.Numbered
  defUse : target.DefUse
  indexed : target.Indexed
  arranged : ∃ order, target.Arranged order

variable {target other : TargetGenerator} {order front back : List TargetId}
  {inst pos id : TargetId} {block : BlockId}

theorem SameShape.blocked (same : target.SameShape other) (blocked : target.Blocked order) :
    other.Blocked order := by
  obtain ⟨owner, delimits, names⟩ := blocked
  refine ⟨owner, ?_, ?_⟩
  · rw [same.spans]
    exact delimits
  · intro id listed block
    rw [same.block]
    exact names id listed block

theorem SameShape.arranged (same : target.SameShape other) (arranged : target.Arranged order) :
    other.Arranged order where
  list := by
    rw [same.code]
    exact arranged.list
  live := by
    intro id listed
    rw [same.live_iff]
    exact arranged.live id listed
  detached := by
    intro id outside live
    rw [same.live_iff] at live
    rw [same.code, same.block]
    exact arranged.detached id outside live
  symbols := by
    rw [symbolSpan, same.firstSymbol, same.lastSymbol]
    exact arranged.symbols
  blocks := same.blocked arranged.blocks

theorem SameShape.indexed (same : target.SameShape other) (indexed : target.Indexed) :
    other.Indexed where
  valid := by
    rw [same.symbolIndex]
    exact indexed.valid
  find_iff := by
    intro symbol id
    rw [same.symbolIndex, same.live_iff, same.opcode, same.symbol]
    exact indexed.find_iff symbol id

/-- Only the users need a proof when the shape stays. -/
theorem Consistent.of_sameShape (consistent : target.Consistent) (same : target.SameShape other)
    (defUse : other.DefUse) : other.Consistent where
  numbered := same.numbered consistent.numbered
  defUse := defUse
  indexed := same.indexed consistent.indexed
  arranged := by
    obtain ⟨order, arranged⟩ := consistent.arranged
    exact ⟨order, same.arranged arranged⟩

/-- The list that an instruction has entered between two parts of the sequence. -/
structure Entered (code entered : LinkedList TargetId) (inst : TargetId)
    (front back : List TargetId) : Prop where
  list : entered.Represents (front ++ inst :: back)
  detached : ∀ id, id ∉ front ++ back → id ≠ inst → code.Detached id → entered.Detached id

variable {code : LinkedList TargetId}

theorem entered_append (represents : code.Represents front) (fresh : inst ∉ front)
    (detached : code.Detached inst) :
    Entered code (code.append inst) inst front [] where
  list := represents.append fresh detached
  detached := by
    intro id outside apart
    rw [List.append_nil] at outside
    exact represents.detached_append fresh detached outside apart

theorem entered_insertBefore (represents : code.Represents (front ++ pos :: back))
    (fresh : inst ∉ front ++ pos :: back) :
    Entered code (code.insertBefore inst pos) inst front (pos :: back) where
  list := represents.insertBefore fresh
  detached := fun _ outside apart =>
    represents.detached_insertBefore (by simp) outside apart

theorem entered_insertAfter (represents : code.Represents (front ++ pos :: back))
    (fresh : inst ∉ front ++ pos :: back) :
    Entered code (code.insertAfter inst pos) inst (front ++ [pos]) back where
  list := by
    rw [List.append_assoc, List.singleton_append]
    exact represents.insertAfter fresh
  detached := by
    intro id outside apart
    rw [List.append_assoc, List.singleton_append] at outside
    exact represents.detached_insertAfter (by simp) outside apart

/-- An instruction has entered the list, and the ends of runs are accounted for. -/
theorem Arranged.entered (arranged : target.Arranged (front ++ back)) (live : target.Live inst)
    (entered : Entered target.code other.code inst front back)
    (sameLive : ∀ id, other.Live id ↔ target.Live id)
    (blockOf : ∀ id, id ≠ inst → other.blockOf id = target.blockOf id)
    (symbols : other.symbolSpan.Within (front ++ inst :: back))
    (blocks : other.Blocked (front ++ inst :: back)) : other.Arranged (front ++ inst :: back) where
  list := entered.list
  live := by
    intro id listed
    rw [sameLive]
    by_cases here : id = inst
    · exact here ▸ live
    · exact arranged.live id (by simpa [here] using listed)
  detached := by
    intro id outside idLive
    have apart : id ≠ inst := by
      rintro rfl
      exact outside (by simp)
    have outside' : id ∉ front ++ back := by simpa [apart] using outside
    obtain ⟨detached, blockless⟩ := arranged.detached id outside' ((sameLive id).mp idLive)
    exact ⟨entered.detached id outside' apart detached, (blockOf id apart).trans blockless⟩
  symbols := symbols
  blocks := blocks

/-- The blocks stay when an instruction without one enters. -/
theorem Blocked.entered (blocked : target.Blocked (front ++ back)) (nodup : (front ++ back).Nodup)
    (fresh : inst ∉ front ++ back) (blockless : target.blockOf inst = none)
    (spans : other.spans = target.spans) (blockOf : ∀ id, other.blockOf id = target.blockOf id) :
    other.Blocked (front ++ inst :: back) := by
  obtain ⟨owner, delimits, names⟩ := blocked
  refine ⟨Function.update owner inst (ownerBetween owner front back), ?_, ?_⟩
  · intro block
    rw [spans]
    exact (delimits block).insertApart nodup fresh
  · intro id listed block named
    rw [blockOf] at named
    have apart : id ≠ inst := by
      rintro rfl
      rw [blockless] at named
      cases named
    rw [Function.update_of_ne apart]
    exact names id (by simpa [apart] using listed) block named

/-- An instruction without a block has entered the list, and nothing else has changed. -/
theorem Arranged.entered_code (arranged : target.Arranged (front ++ back))
    (live : target.Live inst) (fresh : inst ∉ front ++ back)
    (entered : Entered target.code code inst front back) :
    ({ target with code := code } : TargetGenerator).Arranged (front ++ inst :: back) := by
  have nodup := arranged.list.nodup
  have blockless := (arranged.detached inst fresh live).2
  refine arranged.entered live ?_ (fun _ => Iff.rfl) (fun _ _ => rfl) ?_ ?_
  · exact entered
  · exact arranged.symbols.insertApart nodup fresh
  · exact arranged.blocks.entered nodup fresh blockless rfl fun _ => rfl

theorem Indexed.of_code (indexed : target.Indexed) (code : LinkedList TargetId) :
    ({ target with code := code } : TargetGenerator).Indexed :=
  ⟨indexed.valid, indexed.find_iff⟩

theorem DefUse.of_code (defUse : target.DefUse) (code : LinkedList TargetId) :
    ({ target with code := code } : TargetGenerator).DefUse :=
  ⟨⟨defUse.records.mem_users, defUse.records.agree⟩, defUse.retired⟩

end DaveCC.Backend.TargetGenerator
