import DaveCC.Arith.LittleEndian

/-!
# Line-number programs

The machine of the DWARF 4 line-number information: its registers, its instructions, and
the rows that a program appends to the line table. The address operand of an instruction is
relocated, so an address is an offset from the start of a section.
-/

namespace DaveCC.Debug

open DaveCC.Arith

abbrev Bytes := List (BitVec 8)

/-- The fields of a header that the instructions use. -/
structure LineHeader where
  minimumInstructionLength : Nat
  lineBase : ℤ
  lineRange : Nat
  opcodeBase : Nat
  standardOpcodeLengths : List Nat

structure LineRegisters where
  base : Option Nat := none
  address : BitVec 64 := 0
  file : Nat := 1
  line : BitVec 32 := 1
  column : Nat := 0
  deriving DecidableEq

structure LineRow extends LineRegisters where
  endSequence : Bool := false
  deriving DecidableEq

/-- An executed instruction: the bytes it occupies, the registers after it, and the row
that it appends. -/
structure Executed where
  length : Nat
  registers : LineRegisters
  row : Option LineRow := none

namespace LineRegisters

def advance (registers : LineRegisters) (length : Nat) : LineRegisters :=
  { registers with address := registers.address + BitVec.ofNat 64 length }

def advanceLine (registers : LineRegisters) (lines : ℤ) : LineRegisters :=
  { registers with line := registers.line + BitVec.ofInt 32 lines }

def row (registers : LineRegisters) (endSequence : Bool) : LineRow :=
  { registers with endSequence := endSequence }

end LineRegisters

/-- The number of bytes of LEB128 operands. -/
def skipOperands : Nat → Bytes → Option Nat
  | 0, _ => some 0
  | count + 1, operands =>
    (readUleb128 operands).bind fun read =>
      (skipOperands count (operands.drop read.2)).map (read.2 + ·)

variable (header : LineHeader) (relocation : Nat → Option Nat)

/-- A special opcode advances the address and the line, and appends a row. -/
def executeSpecial (opcode : Nat) (registers : LineRegisters) : Executed :=
  let adjusted := opcode - header.opcodeBase
  let registers :=
    (registers.advance (adjusted / header.lineRange * header.minimumInstructionLength)).advanceLine
      (header.lineBase + adjusted % header.lineRange)
  { length := 1, registers := registers, row := some (registers.row false) }

/-- A standard opcode. One that the machine does not know is skipped with its operands. -/
def executeStandard (opcode : Nat) (operands : Bytes) (registers : LineRegisters) :
    Option Executed :=
  match opcode with
  | 1 => some { length := 1, registers := registers, row := some (registers.row false) }
  | 2 =>
    (readUleb128 operands).map fun read =>
      { length := 1 + read.2
        registers := registers.advance (read.1 * header.minimumInstructionLength) }
  | 3 =>
    (readSleb128 operands).map fun read =>
      { length := 1 + read.2, registers := registers.advanceLine read.1 }
  | 4 =>
    (readUleb128 operands).map fun read =>
      { length := 1 + read.2, registers := { registers with file := read.1 } }
  | 5 =>
    (readUleb128 operands).map fun read =>
      { length := 1 + read.2, registers := { registers with column := read.1 } }
  | 8 =>
    let advance := (255 - header.opcodeBase) / header.lineRange
    some
      { length := 1
        registers := registers.advance (advance * header.minimumInstructionLength) }
  | 9 =>
    (wordAt 2 operands 0).map fun advance =>
      { length := 3, registers := registers.advance advance }
  | _ =>
    (skipOperands (header.standardOpcodeLengths.getD (opcode - 1) 0) operands).map fun skipped =>
      { length := 1 + skipped, registers := registers }

/-- An extended opcode at an offset, after its null byte. One that the machine does not
know is skipped. -/
def executeExtended (offset : Nat) (operands : Bytes) (registers : LineRegisters) :
    Option Executed :=
  (readUleb128 operands).bind fun read =>
    let length := 1 + read.2 + read.1
    if operands.length < read.2 + read.1 then none
    else
      match (operands.drop read.2).take read.1 with
      | [] => some { length := length, registers := registers }
      | opcode :: operand =>
        if opcode = 1 then
          some { length := length, registers := {}, row := some (registers.row true) }
        else if opcode = 2 then
          some
            { length := length
              registers :=
                { registers with
                  base := relocation (offset + 1 + read.2 + 1)
                  address := BitVec.ofNat 64 (wordOfBytes operand) } }
        else some { length := length, registers := registers }

/-- The instruction at an offset, which the bytes start with. -/
def execute (offset : Nat) (bytes : Bytes) (registers : LineRegisters) : Option Executed :=
  match bytes with
  | [] => none
  | opcode :: operands =>
    if header.opcodeBase ≤ opcode.toNat then
      some (executeSpecial header opcode.toNat registers)
    else if opcode = 0 then executeExtended relocation offset operands registers
    else executeStandard header opcode.toNat operands registers

/-- The rows of a program at an offset, which has at most `fuel` instructions. -/
def runProgram : Nat → Nat → Bytes → LineRegisters → Option (List LineRow)
  | _, _, [], _ => some []
  | 0, _, _ :: _, _ => none
  | fuel + 1, offset, opcode :: operands, registers =>
    (execute header relocation offset (opcode :: operands) registers).bind fun executed =>
      (runProgram fuel (offset + executed.length) ((opcode :: operands).drop executed.length)
        executed.registers).map (executed.row.toList ++ ·)

/-- The code is one instruction, whatever follows it. -/
def Executes (offset : Nat) (code : Bytes) (registers : LineRegisters) (executed : Executed) :
    Prop :=
  executed.length = code.length ∧
    ∀ rest, execute header relocation offset (code ++ rest) registers = some executed

/-- The code is instructions that append the rows. -/
inductive Runs : Nat → Bytes → LineRegisters → List LineRow → LineRegisters → Prop
  | nil (offset : Nat) (registers : LineRegisters) : Runs offset [] registers [] registers
  | step {offset : Nat} {code more : Bytes} {registers last : LineRegisters}
      {executed : Executed} {rows : List LineRow}
      (executes : Executes header relocation offset code registers executed)
      (runs : Runs (offset + code.length) more executed.registers rows last) :
      Runs offset (code ++ more) registers (executed.row.toList ++ rows) last

variable {header relocation} {offset value : Nat} {code more : Bytes}
  {registers middle last : LineRegisters} {rows others : List LineRow} {executed : Executed}

theorem Runs.single (executes : Executes header relocation offset code registers executed) :
    Runs header relocation offset code registers executed.row.toList executed.registers := by
  have runs := Runs.step executes (.nil _ _)
  rwa [List.append_nil, List.append_nil] at runs

theorem Runs.append (first : Runs header relocation offset code registers rows middle)
    (second : Runs header relocation (offset + code.length) more middle others last) :
    Runs header relocation offset (code ++ more) registers (rows ++ others) last := by
  induction first with
  | nil offset registers => exact second
  | step executes _ ih =>
    rw [List.append_assoc, List.append_assoc]
    apply Runs.step executes
    apply ih
    rwa [List.length_append, ← Nat.add_assoc] at second

theorem Executes.ne_nil (executes : Executes header relocation offset code registers executed) :
    code ≠ [] := by
  rintro rfl
  have returns := executes.2 []
  cases returns

/-- A program that is instructions has their rows. -/
theorem Runs.runProgram (runs : Runs header relocation offset code registers rows last)
    {fuel : Nat} (enough : code.length ≤ fuel) :
    runProgram header relocation fuel offset code registers = some rows := by
  induction runs generalizing fuel with
  | nil offset registers =>
    cases fuel <;> rfl
  | @step offset code more registers last executed rows executes _ ih =>
    have returns := executes.2 more
    have size := executes.1
    cases code with
    | nil => exact absurd rfl executes.ne_nil
    | cons opcode operands =>
      rw [List.length_append, List.length_cons] at enough
      cases fuel with
      | zero => omega
      | succ fuel =>
        rw [List.cons_append] at returns ⊢
        rw [Debug.runProgram, returns, Option.bind_some, size, ← List.cons_append,
          List.drop_left, ih (by omega)]
        rfl

/-! ## Instructions -/

theorem readUleb128_word (fits : value < 2 ^ 32) (rest : Bytes) :
    readUleb128 (uleb128 5 value ++ rest) = some (value, (uleb128 5 value).length) :=
  readUleb128_append (by omega) rest

theorem readSleb128_word (value : BitVec 32) (rest : Bytes) :
    readSleb128 (sleb128 5 value.toInt ++ rest) =
      some (value.toInt, (sleb128 5 value.toInt).length) := by
  have least := BitVec.le_toInt value
  have most := BitVec.toInt_lt (x := value)
  exact readSleb128_append (by omega) (by omega) rest

section Standard

/-- The first five opcodes are standard ones. -/
def LineHeader.Standard (header : LineHeader) : Prop :=
  6 ≤ header.opcodeBase

variable (standard : header.Standard)
include standard

variable {operands : Bytes}

theorem execute_standard {opcode : BitVec 8} (least : 1 ≤ opcode.toNat) (most : opcode.toNat ≤ 5) :
    execute header relocation offset (opcode :: operands) registers =
      executeStandard header opcode.toNat operands registers := by
  have isStandard : ¬header.opcodeBase ≤ opcode.toNat := by
    rw [LineHeader.Standard] at standard
    omega
  have isNonzero : opcode ≠ 0 := by
    rintro rfl
    exact absurd least (by decide)
  rw [execute, if_neg isStandard, if_neg isNonzero]

theorem executes_copy :
    Executes header relocation offset [1] registers
      { length := 1, registers := registers, row := some (registers.row false) } :=
  ⟨rfl, fun _ => execute_standard standard (by decide) (by decide)⟩

theorem executes_advancePc (fits : value < 2 ^ 32) :
    Executes header relocation offset (2 :: uleb128 5 value) registers
      { length := 1 + (uleb128 5 value).length
        registers := registers.advance (value * header.minimumInstructionLength) } := by
  refine ⟨Nat.add_comm .., fun rest => ?_⟩
  rw [List.cons_append, execute_standard standard (by decide) (by decide)]
  change executeStandard header 2 _ _ = _
  rw [executeStandard, readUleb128_word fits]
  rfl

theorem executes_advanceLine (lines : BitVec 32) :
    Executes header relocation offset (3 :: sleb128 5 lines.toInt) registers
      { length := 1 + (sleb128 5 lines.toInt).length
        registers := { registers with line := registers.line + lines } } := by
  refine ⟨Nat.add_comm .., fun rest => ?_⟩
  rw [List.cons_append, execute_standard standard (by decide) (by decide)]
  change executeStandard header 3 _ _ = _
  rw [executeStandard, readSleb128_word, Option.map_some, LineRegisters.advanceLine,
    BitVec.ofInt_toInt]

theorem executes_setFile (fits : value < 2 ^ 32) :
    Executes header relocation offset (4 :: uleb128 5 value) registers
      { length := 1 + (uleb128 5 value).length
        registers := { registers with file := value } } := by
  refine ⟨Nat.add_comm .., fun rest => ?_⟩
  rw [List.cons_append, execute_standard standard (by decide) (by decide)]
  change executeStandard header 4 _ _ = _
  rw [executeStandard, readUleb128_word fits]
  rfl

theorem executes_setColumn (fits : value < 2 ^ 32) :
    Executes header relocation offset (5 :: uleb128 5 value) registers
      { length := 1 + (uleb128 5 value).length
        registers := { registers with column := value } } := by
  refine ⟨Nat.add_comm .., fun rest => ?_⟩
  rw [List.cons_append, execute_standard standard (by decide) (by decide)]
  change executeStandard header 5 _ _ = _
  rw [executeStandard, readUleb128_word fits]
  rfl

theorem execute_extended :
    execute header relocation offset (0 :: operands) registers =
      executeExtended relocation offset operands registers := by
  have isStandard : ¬header.opcodeBase ≤ (0 : BitVec 8).toNat := by
    rw [LineHeader.Standard] at standard
    change ¬header.opcodeBase ≤ 0
    omega
  rw [execute, if_neg isStandard, if_pos rfl]

theorem executes_endSequence :
    Executes header relocation offset [0, 1, 1] registers
      { length := 3, registers := {}, row := some (registers.row true) } := by
  refine ⟨rfl, fun rest => ?_⟩
  rw [List.cons_append, execute_extended standard, executeExtended]
  simp [readUleb128]

/-- An address, which is relocated to a section. -/
theorem executes_setAddress {base : Nat} (relocates : relocation (offset + 3) = some base) :
    Executes header relocation offset ([0, 9, 2] ++ wordBytes 8 0) registers
      { length := 11
        registers := { registers with base := some base, address := 0 } } := by
  refine ⟨rfl, fun rest => ?_⟩
  rw [List.append_assoc, List.cons_append, execute_extended standard, executeExtended]
  simp [readUleb128, wordBytes, wordOfBytes, relocates]

end Standard

end DaveCC.Debug

/-!
## Line tables

The reading of a unit of the DWARF 4 line-number information: its lengths, its tables of
directories and files, and the rows of its program.
-/

namespace DaveCC.Debug

open DaveCC.Arith

/-- The fields of a header that the program uses. -/
def readHeader (bytes : Bytes) : Option LineHeader := do
  let minimumInstructionLength ← bytes[10]?
  let lineBase ← bytes[13]?
  let lineRange ← bytes[14]?
  let opcodeBase ← bytes[15]?
  some
    { minimumInstructionLength := minimumInstructionLength.toNat
      lineBase := lineBase.toInt
      lineRange := lineRange.toNat
      opcodeBase := opcodeBase.toNat
      standardOpcodeLengths :=
        ((bytes.drop 16).take (opcodeBase.toNat - 1)).map BitVec.toNat }

/-- The rows of a unit. Its first length counts what follows that length, its second length
what stands between that length and the program. -/
def readRows (relocation : Nat → Option Nat) (bytes : Bytes) : Option (List LineRow) := do
  let unitLength ← wordAt 4 bytes 0
  let version ← wordAt 2 bytes 4
  let headerLength ← wordAt 4 bytes 6
  let header ← readHeader bytes
  let program := (bytes.take (4 + unitLength)).drop (10 + headerLength)
  guard (version = 4 ∧ 4 + unitLength ≤ bytes.length)
  runProgram header relocation program.length (10 + headerLength) program {}

/-- A string up to the null byte that ends it, and what follows. -/
def readString : Bytes → Option (Bytes × Bytes)
  | [] => none
  | byte :: bytes =>
    if byte = 0 then some ([], bytes)
    else (readString bytes).map fun read => (byte :: read.1, read.2)

/-- Entries that start with a string, up to an empty string. The reader reads the rest of
an entry. -/
def readEntries {α : Type} (reader : Bytes → Bytes → Option (α × Bytes)) :
    Nat → Bytes → Option (List α × Bytes)
  | 0, _ => none
  | fuel + 1, bytes =>
    (readString bytes).bind fun read =>
      if read.1 = [] then some ([], read.2)
      else
        (reader read.1 read.2).bind fun entry =>
          (readEntries reader fuel entry.2).map fun entries =>
            (entry.1 :: entries.1, entries.2)

def readDirectory (name rest : Bytes) : Option (Bytes × Bytes) :=
  some (name, rest)

/-- A file: its name, the index of its directory, and its date and length. -/
def readFile (name rest : Bytes) : Option ((Bytes × Nat) × Bytes) := do
  let dir ← readUleb128 rest
  let date ← readUleb128 (rest.drop dir.2)
  let length ← readUleb128 (rest.drop (dir.2 + date.2))
  some ((name, dir.1), rest.drop (dir.2 + date.2 + length.2))

structure LineTables where
  directories : List Bytes
  files : List (Bytes × Nat)
  deriving DecidableEq

/-- The path of a file: the directory of index zero is the one of the compilation. -/
def LineTables.path (tables : LineTables) (file : Bytes × Nat) : Option Bytes :=
  if file.2 = 0 then some file.1
  else (tables.directories[file.2 - 1]?).map fun directory => directory ++ [47] ++ file.1

/-- The tables of a unit, and the number of bytes up to their end. -/
def readTables (bytes : Bytes) : Option (LineTables × Nat) := do
  let opcodeBase ← bytes[15]?
  let directories ← readEntries readDirectory bytes.length (bytes.drop (15 + opcodeBase.toNat))
  let files ← readEntries readFile bytes.length directories.2
  some ({ directories := directories.1, files := files.1 }, bytes.length - files.2.length)

end DaveCC.Debug
