import DaveCC.Debug.DebugLine

/-!
# The rows of a statement program

What the loop over the locations appends, run from the registers that the locations before
leave, appends a row for each location, and ends the sequences.
-/

namespace DaveCC.Debug

open DaveCC.Arith LocationEntry

/-- The registers when the row of a location is appended. -/
def LocationEntry.registers (loc : LocationEntry) : LineRegisters where
  base := some loc.sectionIndex
  address := loc.address
  file := loc.file.toNat
  line := loc.line
  column := loc.col.toNat

def LocationEntry.row (loc : LocationEntry) : LineRow :=
  loc.registers.row false

def LocationEntry.endRow (loc : LocationEntry) : LineRow :=
  loc.registers.row true

/-- The end of the sequence before a location that starts one. -/
def endRows (prevLoc : Option LocationEntry) (loc : LocationEntry) : List LineRow :=
  match prevLoc with
  | none => []
  | some prev => if newSequence (some prev) loc then [prev.endRow] else []

/-- The rows of locations after the one before them. -/
def locationRows : Option LocationEntry → List LocationEntry → List LineRow
  | none, [] => []
  | some prev, [] => [prev.endRow]
  | prevLoc, loc :: locations => endRows prevLoc loc ++ loc.row :: locationRows (some loc) locations

/-- An address is a whole number of instructions that fits in 32 bits. -/
def Representable (minInstructionLength : Nat) (address : BitVec 64) : Prop :=
  minInstructionLength ∣ address.toNat ∧ address.toNat / minInstructionLength < 2 ^ 32

instance (minInstructionLength : Nat) (address : BitVec 64) :
    Decidable (Representable minInstructionLength address) :=
  inferInstanceAs (Decidable (_ ∧ _))

variable {header : LineHeader} {relocation : Nat → Option Nat} {minInstructionLength : Nat}
  {before middle after : LineContents} {registers inner last : LineRegisters}
  {rows others : List LineRow} {state : StatementState} {loc prev : LocationEntry}

/-- The relocation of every address of the contents. -/
def Relocates (relocation : Nat → Option Nat) (contents : LineContents) : Prop :=
  ∀ fixup ∈ contents.addressFixups, relocation fixup.1 = some fixup.2

/-- Instructions were appended that append the rows. -/
structure Emits (header : LineHeader) (relocation : Nat → Option Nat) (before : LineContents)
    (registers : LineRegisters) (rows : List LineRow) (after : LineContents)
    (last : LineRegisters) : Prop where
  appended : ∃ code, after.bytes = before.bytes ++ code ∧
    Runs header relocation before.bytes.length code registers rows last

theorem Emits.refl (contents : LineContents) (registers : LineRegisters) :
    Emits header relocation contents registers [] contents registers :=
  ⟨[], (List.append_nil _).symm, .nil _ _⟩

theorem Emits.trans (first : Emits header relocation before registers rows middle inner)
    (second : Emits header relocation middle inner others after last) :
    Emits header relocation before registers (rows ++ others) after last := by
  obtain ⟨code, split, runs⟩ := first
  obtain ⟨more, splitMore, runsMore⟩ := second
  rw [split, List.length_append] at runsMore
  exact ⟨code ++ more, by rw [splitMore, split, List.append_assoc], runs.append runsMore⟩

/-- Code that appends no row. -/
theorem Emits.quiet (first : Emits header relocation before registers rows middle inner)
    (second : Emits header relocation middle inner [] after last) :
    Emits header relocation before registers rows after last := by
  have emits := first.trans second
  rwa [List.append_nil] at emits

variable {code : Bytes} {executed : Executed}

theorem Emits.of_executes (split : after.bytes = before.bytes ++ code)
    (executes : Executes header relocation before.bytes.length code registers executed) :
    Emits header relocation before registers executed.row.toList after executed.registers :=
  ⟨code, split, .single executes⟩

theorem Emits.single
    (executes : Executes header relocation before.bytes.length code registers executed) :
    Emits header relocation before registers executed.row.toList (before.append code)
      executed.registers :=
  .of_executes rfl executes

theorem toNat_div_mul (representable : Representable minInstructionLength loc.address) :
    BitVec.ofNat 64 (loc.address.toNat / minInstructionLength % 2 ^ 32 * minInstructionLength) =
      loc.address := by
  rw [Nat.mod_eq_of_lt representable.2, Nat.div_mul_cancel representable.1]
  rw [BitVec.ofNat_toNat, BitVec.setWidth_eq]

/-- The distance between two addresses that are in order. -/
theorem sub_div_mul (early : Representable minInstructionLength prev.address)
    (late : Representable minInstructionLength loc.address) (ordered : prev.address ≤ loc.address) :
    prev.address + BitVec.ofNat 64
        ((loc.address - prev.address).toNat / minInstructionLength % 2 ^ 32 *
          minInstructionLength) = loc.address := by
  have distance : (loc.address - prev.address).toNat = loc.address.toNat - prev.address.toNat :=
    BitVec.toNat_sub_of_le ordered
  have small : (loc.address.toNat - prev.address.toNat) / minInstructionLength < 2 ^ 32 :=
    Nat.lt_of_le_of_lt (Nat.div_le_div_right (Nat.sub_le _ _)) late.2
  rw [distance, Nat.mod_eq_of_lt small, Nat.div_mul_cancel (Nat.dvd_sub late.1 early.1), ← distance,
    BitVec.ofNat_toNat, BitVec.setWidth_eq, BitVec.add_comm, BitVec.sub_add_cancel]

section Location

variable (standard : header.Standard)
  (length : header.minimumInstructionLength = minInstructionLength)
include standard

theorem setFile_emits (loc : LocationEntry) (current : registers.file = state.currentFile.toNat) :
    Emits header relocation state.contents registers [] (setFile state loc).contents
      { registers with file := loc.file.toNat } := by
  rw [setFile]
  split
  · next same =>
    rw [same, ← current]
    exact .refl _ _
  · exact .single (executes_setFile standard loc.file.isLt)

theorem setColumn_emits (loc : LocationEntry) (current : registers.column = state.currentColumn.toNat) :
    Emits header relocation state.contents registers [] (setColumn state loc).contents
      { registers with column := loc.col.toNat } := by
  rw [setColumn]
  split
  · next same =>
    rw [same, ← current]
    exact .refl _ _
  · exact .single (executes_setColumn standard loc.col.isLt)

include length

theorem advanceFrom_emits (line : registers.line = prev.line)
    (address : registers.address = prev.address)
    (early : Representable minInstructionLength prev.address)
    (late : Representable minInstructionLength loc.address) (ordered : prev.address ≤ loc.address) :
    Emits header relocation state.contents registers []
      (advanceFrom minInstructionLength state prev loc).contents
      { registers with line := loc.line, address := loc.address } := by
  have lines : Emits header relocation state.contents registers []
      (if loc.line - prev.line = 0 then state.contents
        else state.contents.append (3 :: sleb128 5 (loc.line - prev.line).toInt))
      { registers with line := loc.line } := by
    split
    · next same =>
      rw [sub_eq_zero.mp same, ← line]
      exact .refl _ _
    · have moved : { registers with line := registers.line + (loc.line - prev.line) } =
          { registers with line := loc.line } := by
        rw [line, BitVec.add_comm, BitVec.sub_add_cancel]
      rw [← moved]
      exact .single (executes_advanceLine standard (loc.line - prev.line))
  have addresses (contents : LineContents) :
      Emits header relocation contents { registers with line := loc.line } []
        (if (loc.address - prev.address).toNat / minInstructionLength % 2 ^ 32 = 0 then contents
          else contents.append
            (2 :: uleb128 5 ((loc.address - prev.address).toNat / minInstructionLength % 2 ^ 32)))
        { registers with line := loc.line, address := loc.address } := by
    have distance := sub_div_mul early late ordered
    split
    · next same =>
      rw [same, Nat.zero_mul, BitVec.add_zero] at distance
      rw [← distance, ← address]
      exact .refl _ _
    · have stepped : { registers with line := loc.line }.advance
          ((loc.address - prev.address).toNat / minInstructionLength % 2 ^ 32 *
            header.minimumInstructionLength) =
          { registers with line := loc.line, address := loc.address } := by
        rw [LineRegisters.advance, length]
        simp only [address, distance]
      rw [← stepped]
      exact .single (executes_advancePc standard (Nat.mod_lt _ (by decide)))
  exact lines.quiet (addresses _)

/-- The start of a sequence, which ends the one before it. -/
theorem startSequence_emits (initial : state.prevLoc = none → registers = {})
    (relocates : Relocates relocation (startSequence minInstructionLength state loc).contents)
    (late : Representable minInstructionLength loc.address) :
    Emits header relocation state.contents registers
      (match state.prevLoc with
        | none => []
        | some _ => [registers.row true])
      (startSequence minInstructionLength state loc).contents
      { base := some loc.sectionIndex, address := loc.address, line := loc.line } := by
  have ended : Emits header relocation state.contents registers
      (match state.prevLoc with
        | none => []
        | some _ => [registers.row true])
      (match state.prevLoc with
        | none => state.contents
        | some _ => state.contents.append endSequenceBytes) {} := by
    cases before : state.prevLoc with
    | none =>
      rw [initial before]
      exact .refl _ _
    | some prev => exact .single (executes_endSequence standard)
  have lined (contents : LineContents) : Emits header relocation contents {} []
      (contents.append (3 :: sleb128 5 (loc.line - 1).toInt)) { line := loc.line } := by
    have moved : { ({} : LineRegisters) with line := 1 + (loc.line - 1) } =
        { line := loc.line } := by
      rw [BitVec.add_comm, BitVec.sub_add_cancel]
    rw [← moved]
    exact .single (executes_advanceLine standard (loc.line - 1))
  have addressed (contents : LineContents) :
      Emits header relocation contents { base := some loc.sectionIndex, line := loc.line } []
        (contents.append (2 :: uleb128 5 (loc.address.toNat / minInstructionLength % 2 ^ 32)))
        { base := some loc.sectionIndex, address := loc.address, line := loc.line } := by
    have stepped : ({ base := some loc.sectionIndex, line := loc.line } : LineRegisters).advance
        (loc.address.toNat / minInstructionLength % 2 ^ 32 * header.minimumInstructionLength) =
        { base := some loc.sectionIndex, address := loc.address, line := loc.line } := by
      rw [LineRegisters.advance, length, toNat_div_mul late]
      simp
    rw [← stepped]
    exact .single (executes_advancePc standard (Nat.mod_lt _ (by decide)))
  apply ((ended.quiet (lined _)).quiet _).quiet (addressed _)
  have relocated := relocates _ (List.mem_append_right _ List.mem_cons_self)
  apply Emits.of_executes _ (executes_setAddress standard _)
  · exact List.append_assoc ..
  · rw [LineContents.append, List.length_append] at relocated
    exact relocated

end Location

/-! ## The loop -/

/-- The registers are those of the last location, and the loop remembers the file and the
column in them. -/
structure Tracks (state : StatementState) (registers : LineRegisters) : Prop where
  last : registers = (match state.prevLoc with
    | none => {}
    | some prev => prev.registers)
  file : registers.file = state.currentFile.toNat
  column : registers.column = state.currentColumn.toNat

@[simp] theorem setFile_prevLoc : (setFile state loc).prevLoc = state.prevLoc := by
  rw [setFile]
  split <;> rfl

@[simp] theorem setFile_currentColumn :
    (setFile state loc).currentColumn = state.currentColumn := by
  rw [setFile]
  split <;> rfl

@[simp] theorem setFile_currentFile : (setFile state loc).currentFile = loc.file := by
  rw [setFile]
  split
  · next same => exact same.symm
  · rfl

@[simp] theorem setColumn_prevLoc : (setColumn state loc).prevLoc = state.prevLoc := by
  rw [setColumn]
  split <;> rfl

@[simp] theorem setColumn_currentFile :
    (setColumn state loc).currentFile = state.currentFile := by
  rw [setColumn]
  split <;> rfl

@[simp] theorem setColumn_currentColumn : (setColumn state loc).currentColumn = loc.col := by
  rw [setColumn]
  split
  · next same => exact same.symm
  · rfl

@[simp] theorem setFile_addressFixups :
    (setFile state loc).contents.addressFixups = state.contents.addressFixups := by
  rw [setFile]
  split <;> rfl

@[simp] theorem setColumn_addressFixups :
    (setColumn state loc).contents.addressFixups = state.contents.addressFixups := by
  rw [setColumn]
  split <;> rfl

theorem emitLocation_starting (minInstructionLength : Nat)
    (starts : newSequence state.prevLoc loc = true) :
    (emitLocation minInstructionLength state loc).contents =
        (setColumn (setFile (startSequence minInstructionLength state loc) loc) loc).contents.append
          [1] ∧
      Tracks (emitLocation minInstructionLength state loc) loc.registers := by
  rw [emitLocation]
  simp only [starts, if_true]
  constructor
  · split <;> rfl
  · constructor
    · rfl
    · split <;> simp [registers]
    · split <;> simp [registers]

/-- A location that continues the sequence of the one before it. -/
theorem emitLocation_continuing (before : state.prevLoc = some prev)
    (continues : newSequence (some prev) loc = false) :
    (emitLocation minInstructionLength state loc).contents =
        (advanceFrom minInstructionLength (setColumn (setFile state loc) loc) prev loc).contents.append
          [1] ∧
      Tracks (emitLocation minInstructionLength state loc) loc.registers := by
  have between : (setColumn (setFile state loc) loc).prevLoc = some prev := by simp [before]
  rw [emitLocation]
  simp only [before, continues, Bool.false_eq_true, if_false, between]
  constructor
  · trivial
  · constructor
    · rfl
    · simp [registers, advanceFrom]
    · simp [registers, advanceFrom]

/-- The row of a location. -/
theorem copy_emits (standard : header.Standard) (contents : LineContents) :
    Emits header relocation contents loc.registers [loc.row] (contents.append [1])
      loc.registers :=
  .single (executes_copy standard)

/-- One iteration of the loop. -/
theorem emitLocation_emits (standard : header.Standard)
    (length : header.minimumInstructionLength = minInstructionLength)
    (tracks : Tracks state registers)
    (relocates : Relocates relocation (emitLocation minInstructionLength state loc).contents)
    (early : ∀ prev, state.prevLoc = some prev → Representable minInstructionLength prev.address)
    (late : Representable minInstructionLength loc.address) :
    Emits header relocation state.contents registers (endRows state.prevLoc loc ++ [loc.row])
      (emitLocation minInstructionLength state loc).contents loc.registers := by
  cases starts : newSequence state.prevLoc loc with
  | true =>
    have contents := (emitLocation_starting minInstructionLength starts).1
    rw [contents] at relocates ⊢
    have relocates : Relocates relocation
        (startSequence minInstructionLength state loc).contents := by
      simpa [Relocates, LineContents.append] using relocates
    have ends : endRows state.prevLoc loc = (match state.prevLoc with
        | none => []
        | some _ => [registers.row true]) := by
      rw [tracks.last]
      cases before : state.prevLoc with
      | none => rfl
      | some prev =>
        rw [before] at starts
        simp only [endRows, starts, if_true]
        rfl
    rw [ends]
    have initial : state.prevLoc = none → registers = {} := by
      intro before
      rw [tracks.last, before]
    have started := startSequence_emits standard length initial relocates late
    have filed := started.quiet (setFile_emits standard loc rfl)
    have columned := filed.quiet (setColumn_emits standard loc (by rw [setFile_currentColumn]; rfl))
    exact columned.trans (copy_emits standard _)
  | false =>
    cases before : state.prevLoc with
    | none =>
      rw [before] at starts
      cases starts
    | some prev =>
      rw [before] at starts
      rw [(emitLocation_continuing before starts).1]
      have ordered : prev.address ≤ loc.address := by
        simp only [newSequence, Bool.or_eq_false_iff, decide_eq_false_iff_not] at starts
        exact BitVec.not_lt.mp starts.2
      have sameSection : loc.sectionIndex = prev.sectionIndex := by
        simp only [newSequence, Bool.or_eq_false_iff, bne_eq_false_iff_eq] at starts
        exact starts.1
      have last : registers = prev.registers := by rw [tracks.last, before]
      have ends : endRows (some prev) loc = [] := by simp [endRows, starts]
      rw [ends]
      have filed : Emits header relocation state.contents registers []
          (setFile state loc).contents { registers with file := loc.file.toNat } :=
        setFile_emits standard loc tracks.file
      have columned := filed.quiet (setColumn_emits standard loc (by simpa using tracks.column))
      have advanced := columned.quiet (advanceFrom_emits standard length
        (by rw [last]; rfl) (by rw [last]; rfl) (early prev before) late ordered)
      have own : { prev.registers with
          file := loc.file.toNat, column := loc.col.toNat, line := loc.line,
          address := loc.address } = loc.registers := by
        simp only [LocationEntry.registers, sameSection]
      rw [last, own] at advanced
      exact last ▸ advanced.trans (copy_emits standard _)

theorem emitLocation_tracks :
    Tracks (emitLocation minInstructionLength state loc) loc.registers := by
  cases starts : newSequence state.prevLoc loc with
  | true => exact (emitLocation_starting minInstructionLength starts).2
  | false =>
    cases before : state.prevLoc with
    | none =>
      rw [before] at starts
      cases starts
    | some prev =>
      rw [before] at starts
      exact (emitLocation_continuing before starts).2

/-- The addresses stay, and one may be added. -/
theorem emitLocation_addressFixups (minInstructionLength : Nat) (state : StatementState)
    (loc : LocationEntry) : state.contents.addressFixups <+:
      (emitLocation minInstructionLength state loc).contents.addressFixups := by
  cases starts : newSequence state.prevLoc loc with
  | true =>
    rw [(emitLocation_starting minInstructionLength starts).1, LineContents.append,
      setColumn_addressFixups, setFile_addressFixups]
    rw [startSequence]
    cases state.prevLoc <;> exact List.prefix_append _ _
  | false =>
    cases before : state.prevLoc with
    | none =>
      rw [before] at starts
      cases starts
    | some prev =>
      rw [before] at starts
      rw [(emitLocation_continuing before starts).1, LineContents.append, advanceFrom]
      have same : (setColumn (setFile state loc) loc).contents.addressFixups =
          state.contents.addressFixups := by simp
      split <;> split <;> exact same ▸ List.prefix_refl _

theorem foldl_addressFixups (locations : List LocationEntry) (state : StatementState) :
    state.contents.addressFixups <+:
      (locations.foldl (emitLocation minInstructionLength) state).contents.addressFixups := by
  induction locations generalizing state with
  | nil => exact List.prefix_refl _
  | cons loc locations ih =>
    exact (emitLocation_addressFixups minInstructionLength state loc).trans (ih _)

variable {locations : List LocationEntry}

/-- The loop, and the end of the last sequence. -/
theorem foldl_emits (standard : header.Standard)
    (length : header.minimumInstructionLength = minInstructionLength)
    (tracks : Tracks state registers)
    (relocates : Relocates relocation (locations.foldl (emitLocation minInstructionLength)
      state).contents)
    (early : ∀ prev, state.prevLoc = some prev → Representable minInstructionLength prev.address)
    (late : ∀ loc ∈ locations, Representable minInstructionLength loc.address) :
    ∃ last, Emits header relocation state.contents registers (locationRows state.prevLoc locations)
      (finish (locations.foldl (emitLocation minInstructionLength) state)) last := by
  induction locations generalizing state registers with
  | nil =>
    rw [List.foldl_nil, finish]
    cases before : state.prevLoc with
    | none => exact ⟨_, .refl _ _⟩
    | some prev =>
      have last : registers = prev.registers := by rw [tracks.last, before]
      rw [last]
      exact ⟨_, .single (executes_endSequence standard)⟩
  | cons loc locations ih =>
    rw [List.foldl_cons] at relocates ⊢
    have first := emitLocation_emits standard length tracks
      (fun fixup listed => relocates fixup ((foldl_addressFixups _ _).subset listed)) early
      (late loc List.mem_cons_self)
    rcases ih emitLocation_tracks relocates
      (by
        intro prev before
        cases before
        exact late loc List.mem_cons_self)
      (fun other listed => late other (List.mem_cons_of_mem _ listed)) with ⟨last, rest⟩
    refine ⟨last, ?_⟩
    have emits := first.trans rest
    rw [List.append_assoc] at emits
    rw [locationRows]
    exact emits

/-- The addresses lie one after the other in the contents. -/
structure Placed (contents : LineContents) : Prop where
  ascending : (contents.addressFixups.map Prod.fst).Pairwise (· < ·)
  inside : ∀ fixup ∈ contents.addressFixups, fixup.1 < contents.bytes.length

variable {contents : LineContents}

theorem Placed.append (placed : Placed contents) (bytes : Bytes) :
    Placed (contents.append bytes) where
  ascending := placed.ascending
  inside := by
    intro fixup listed
    rw [LineContents.append, List.length_append]
    exact Nat.lt_add_right _ (placed.inside fixup listed)

/-- An address is put at the end. -/
theorem Placed.address (placed : Placed contents) (sectionIndex : Nat) :
    Placed (LineContents.append
      { contents with
        addressFixups := contents.addressFixups ++ [(contents.bytes.length, sectionIndex)] }
      (wordBytes 8 0)) where
  ascending := by
    rw [LineContents.append, List.map_append, List.pairwise_append]
    refine ⟨placed.ascending, List.pairwise_singleton _ _, ?_⟩
    intro offset before last own
    rcases List.mem_map.mp before with ⟨fixup, listed, rfl⟩
    rw [List.mem_singleton.mp own]
    exact placed.inside fixup listed
  inside := by
    intro fixup listed
    rw [LineContents.append, List.length_append, length_wordBytes]
    rcases List.mem_append.mp listed with listed | own
    · exact Nat.lt_add_right _ (placed.inside fixup listed)
    · rw [List.mem_singleton.mp own]
      exact Nat.lt_add_of_pos_right (by decide)

section

variable (placed : Placed state.contents)

include placed

theorem Placed.startSequence (loc : LocationEntry) :
    Placed (startSequence minInstructionLength state loc).contents := by
  apply Placed.append
  apply Placed.address
  apply Placed.append
  apply Placed.append
  cases state.prevLoc with
  | none => exact placed
  | some prev => exact placed.append _

theorem Placed.setFile (loc : LocationEntry) : Placed (setFile state loc).contents := by
  rw [Debug.setFile]
  split
  · exact placed
  · exact placed.append _

theorem Placed.setColumn (loc : LocationEntry) : Placed (setColumn state loc).contents := by
  rw [Debug.setColumn]
  split
  · exact placed
  · exact placed.append _

theorem Placed.advanceFrom (prev loc : LocationEntry) :
    Placed (advanceFrom minInstructionLength state prev loc).contents := by
  rw [Debug.advanceFrom]
  split <;> split
  · exact placed
  · exact placed.append _
  · exact placed.append _
  · exact (placed.append _).append _

theorem Placed.emitLocation (loc : LocationEntry) :
    Placed (emitLocation minInstructionLength state loc).contents := by
  cases starts : newSequence state.prevLoc loc with
  | true =>
    rw [(emitLocation_starting minInstructionLength starts).1]
    exact (((placed.startSequence loc).setFile loc).setColumn loc).append _
  | false =>
    cases before : state.prevLoc with
    | none =>
      rw [before] at starts
      cases starts
    | some prev =>
      rw [before] at starts
      rw [(emitLocation_continuing before starts).1]
      exact (((placed.setFile loc).setColumn loc).advanceFrom prev loc).append _

theorem Placed.foldl :
    Placed (locations.foldl (Debug.emitLocation minInstructionLength) state).contents := by
  induction locations generalizing state with
  | nil => exact placed
  | cons loc locations ih => exact ih (placed.emitLocation loc)

end

theorem finish_addressFixups (state : StatementState) :
    (finish state).addressFixups = state.contents.addressFixups := by
  rw [finish]
  split <;> rfl

theorem lookup_of_ascending {entries : List (Nat × Nat)} {entry : Nat × Nat}
    (ascending : (entries.map Prod.fst).Pairwise (· < ·)) (listed : entry ∈ entries) :
    entries.lookup entry.1 = some entry.2 := by
  induction entries with
  | nil => cases listed
  | cons first rest ih =>
    rw [List.map_cons, List.pairwise_cons] at ascending
    rcases List.mem_cons.mp listed with rfl | listed
    · rw [List.lookup_cons_self]
    · have above := ascending.1 entry.1 (List.mem_map_of_mem listed)
      rw [List.lookup_cons, beq_false_of_ne (Nat.ne_of_gt above)]
      exact ih ascending.2 listed

/-- The addresses of the contents are relocated by their offsets. -/
theorem Placed.relocates (placed : Placed contents) :
    Relocates (fun offset => contents.addressFixups.lookup offset) contents :=
  fun _ listed => lookup_of_ascending placed.ascending listed

end DaveCC.Debug
