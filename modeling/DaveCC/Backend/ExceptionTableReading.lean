import DaveCC.Backend.ExceptionTable

/-!
# Reading an exception table back

The cells of a table whose rows are given, and that they decode to the rows: a chain to the
meanings of its filters, a filter to its entry of the type table, the call sites each to its
own chain.
-/

namespace DaveCC.Backend

open DaveCC.Arith

theorem plainBytes_bytesOf (bytes : List (BitVec 8)) (after : List LSDACell) :
    plainBytes (bytesOf bytes ++ after) = bytes ++ plainBytes after := by
  induction bytes with
  | nil => rfl
  | cons byte bytes ih => exact congrArg (byte :: ·) ih

@[simp] theorem length_bytesOf (bytes : List (BitVec 8)) : (bytesOf bytes).length = bytes.length :=
  List.length_map _

/-- The largest number that a table holds: the counters and values have 64 bits. -/
theorem pow_two_sixty_four_le : 2 ^ 64 ≤ 128 ^ (9 + 1) := by
  decide

theorem readUnsigned_between {value : Nat} (fits : value < 2 ^ 64) (before after : List LSDACell) :
    readUnsigned (before ++ (bytesOf (uleb128 10 value) ++ after)) before.length =
      some (value, before.length + (uleb128 10 value).length) := by
  rw [readUnsigned, List.drop_left, plainBytes_bytesOf,
    readUleb128_append (Nat.lt_of_lt_of_le fits pow_two_sixty_four_le)]
  rfl

theorem readSigned_between {value : ℤ} (least : -(2 ^ 63) ≤ value) (most : value < 2 ^ 63)
    (before after : List LSDACell) :
    readSigned (before ++ (bytesOf (sleb128 10 value) ++ after)) before.length =
      some (value, before.length + (sleb128 10 value).length) := by
  rw [readSigned, List.drop_left, plainBytes_bytesOf, readSleb128_append (by omega) (by omega)]
  rfl

/-- An entry of the type table. -/
def typeCells : Option String → List LSDACell
  | none => bytesOf (wordBytes 4 0)
  | some symbol => symbolField symbol 0

/-- The type table, the last type first. -/
def typeTableCells (typeSymbols : List (Option String)) : List LSDACell :=
  typeSymbols.reverse.flatMap typeCells

@[simp] theorem length_typeCells (type : Option String) : (typeCells type).length = 4 := by
  cases type with
  | none => rfl
  | some symbol => rfl

theorem length_flatMap_typeCells (types : List (Option String)) :
    (types.flatMap typeCells).length = 4 * types.length := by
  induction types with
  | nil => rfl
  | cons type types ih =>
    rw [List.flatMap_cons, List.length_append, length_typeCells, ih, List.length_cons]
    omega

@[simp] theorem length_typeTableCells (typeSymbols : List (Option String)) :
    (typeTableCells typeSymbols).length = 4 * typeSymbols.length := by
  rw [typeTableCells, length_flatMap_typeCells, List.length_reverse]

/-- An entry of the type table is read at its place. -/
theorem typeAt_between (before after : List LSDACell) (type : Option String) :
    typeAt (before ++ (typeCells type ++ after)) before.length = some type := by
  rw [typeAt, List.drop_left, List.take_left' (length_typeCells type)]
  cases type with
  | none => exact if_pos rfl
  | some symbol =>
    exact if_pos rfl

/-- The meaning of a filter, as the range that has it named it. -/
def meaningOf (typeSymbols : List (Option String)) (filter : ℤ) : LSDAAction :=
  if filter = 0 then .cleanup else .catches (typeSymbols.getD (filter.toNat - 1) none)

variable {typeSymbols : List (Option String)} {filter : ℤ}

/-- A filter that the type table covers is decoded. -/
theorem filterMeaning_between (nonnegative : 0 ≤ filter) (covered : filter ≤ typeSymbols.length)
    (before after : List LSDACell) :
    filterMeaning (before ++ (typeTableCells typeSymbols ++ after))
        (before.length + 4 * typeSymbols.length) filter =
      some (meaningOf typeSymbols filter) := by
  rw [filterMeaning, meaningOf]
  by_cases zero : filter = 0
  · rw [if_pos zero, if_pos zero]
  · rw [if_neg zero, if_neg zero, if_pos (by omega)]
    obtain ⟨index, rfl⟩ : ∃ index : Nat, filter = index + 1 := ⟨filter.toNat - 1, by omega⟩
    have inside : index < typeSymbols.length := by omega
    have asNat : ((index : ℤ) + 1).toNat = index + 1 := by omega
    have split : typeSymbols = typeSymbols.take index ++ typeSymbols[index] ::
        typeSymbols.drop (index + 1) := by
      rw [List.cons_getElem_drop_succ, List.take_append_drop]
    have laidOut : typeTableCells typeSymbols =
        (typeSymbols.drop (index + 1)).reverse.flatMap typeCells ++
          (typeCells typeSymbols[index] ++
            (typeSymbols.take index).reverse.flatMap typeCells) := by
      conv_lhs => rw [typeTableCells, split]
      rw [List.reverse_append, List.reverse_cons]
      simp
    have place : before.length + 4 * typeSymbols.length - 4 * (index + 1) =
        (before ++ (typeSymbols.drop (index + 1)).reverse.flatMap typeCells).length := by
      rw [List.length_append, length_flatMap_typeCells, List.length_reverse, List.length_drop]
      omega
    have read := typeAt_between (before ++ (typeSymbols.drop (index + 1)).reverse.flatMap typeCells)
      ((typeSymbols.take index).reverse.flatMap typeCells ++ after) typeSymbols[index]
    rw [asNat, place, laidOut]
    simp only [List.append_assoc] at read ⊢
    rw [read, Option.map_some, Nat.add_sub_cancel, List.getD_eq_getElem?_getD,
      List.getElem?_eq_getElem inside, Option.getD_some]

/-- An action record. -/
def recordCells (filter displacement : ℤ) : List LSDACell :=
  bytesOf (sleb128 10 filter) ++ bytesOf (sleb128 10 displacement)

/-- The records of a call site, each followed by the next. -/
def chainCells : List ℤ → List LSDACell
  | [] => []
  | [filter] => recordCells filter 0
  | filter :: next :: filters => recordCells filter 1 ++ chainCells (next :: filters)

theorem readRecord_between {displacement : ℤ} (least : -(2 ^ 63) ≤ filter)
    (most : filter < 2 ^ 63) (isNext : displacement = 0 ∨ displacement = 1)
    (before after : List LSDACell) :
    ∃ next, readSigned (before ++ (recordCells filter displacement ++ after)) before.length =
        some (filter, next) ∧
      readSigned (before ++ (recordCells filter displacement ++ after)) next =
        some (displacement, next + 1) ∧
      next + 1 = (before ++ recordCells filter displacement).length := by
  have oneByte : (sleb128 10 displacement).length = 1 := by
    rcases isNext with rfl | rfl <;> rfl
  refine ⟨before.length + (sleb128 10 filter).length, ?_, ?_, ?_⟩
  · rw [recordCells, List.append_assoc]
    exact readSigned_between least most before _
  · have read := @readSigned_between displacement (by omega) (by omega)
      (before ++ bytesOf (sleb128 10 filter)) after
    rw [List.length_append, length_bytesOf, oneByte] at read
    rw [recordCells]
    simp only [List.append_assoc] at read ⊢
    exact read
  · rw [recordCells, List.length_append, List.length_append, length_bytesOf, length_bytesOf,
      oneByte, Nat.add_assoc]

/-- A chain is decoded to the meanings of its filters. -/
theorem readActions_between {typeEnd : Nat} {meaning : ℤ → LSDAAction} (filters : List ℤ)
    (before after cells : List LSDACell) (steps : Nat)
    (placed : cells = before ++ (chainCells filters ++ after)) (nonempty : filters ≠ [])
    (bounded : ∀ filter ∈ filters, -(2 ^ 63) ≤ filter ∧ filter < 2 ^ 63)
    (decoded : ∀ filter ∈ filters, filterMeaning cells typeEnd filter = some (meaning filter))
    (enough : filters.length ≤ steps) :
    readActions cells typeEnd steps before.length = some (filters.map meaning) := by
  induction filters generalizing before steps with
  | nil => exact absurd rfl nonempty
  | cons filter filters ih =>
    obtain ⟨steps, rfl⟩ := Nat.exists_eq_add_of_le' (Nat.le_of_add_left_le enough)
    have bounds := bounded filter List.mem_cons_self
    have action := decoded filter List.mem_cons_self
    cases filters with
    | nil =>
      obtain ⟨next, first, second, -⟩ := readRecord_between bounds.1 bounds.2 (.inl rfl) before
        after
      rw [chainCells] at placed
      rw [← placed] at first second
      rw [readActions, first, Option.bind_eq_bind, Option.bind_some, second, Option.bind_eq_bind,
        Option.bind_some, action, Option.bind_eq_bind, Option.bind_some, if_pos rfl]
      rfl
    | cons other filters =>
      obtain ⟨next, first, second, ends⟩ := readRecord_between bounds.1 bounds.2 (.inr rfl)
        before (chainCells (other :: filters) ++ after)
      rw [chainCells, List.append_assoc] at placed
      rw [← placed] at first second
      have rest := ih (before ++ recordCells filter 1) steps
        (by rw [placed, List.append_assoc]) (List.cons_ne_nil _ _)
        (fun value member => bounded value (List.mem_cons_of_mem _ member))
        (fun value member => decoded value (List.mem_cons_of_mem _ member))
        (by simp only [List.length_cons] at enough ⊢; omega)
      rw [← ends] at rest
      have jump : ((next : ℤ) + 1).toNat = next + 1 := by omega
      rw [readActions, first, Option.bind_eq_bind, Option.bind_some, second,
        Option.bind_eq_bind, Option.bind_some, action, Option.bind_eq_bind, Option.bind_some,
        if_neg one_ne_zero, jump, rest]
      rfl

theorem length_chainCells_pos (filters : List ℤ) : filters.length ≤ (chainCells filters).length := by
  have recordPos (filter displacement : ℤ) : 1 ≤ (recordCells filter displacement).length := by
    rw [recordCells, List.length_append, length_bytesOf, length_bytesOf, sleb128]
    split
    · exact Nat.le_add_right 1 _
    · rw [List.length_cons]
      omega
  induction filters with
  | nil => exact Nat.le_refl 0
  | cons filter filters ih =>
    cases filters with
    | nil => exact recordPos filter 0
    | cons next filters =>
      have here := recordPos filter 1
      rw [chainCells, List.length_append, List.length_cons]
      omega

/-! ## Call sites -/

/-- A call site as the table holds it. -/
structure LSDARow where
  start : Nat
  length : Nat
  landingPad : Nat
  filters : List ℤ

/-- A call site whose chain starts at an offset of the action table. -/
def siteCells (first : Nat) (row : LSDARow) : List LSDACell :=
  bytesOf (uleb128 10 row.start) ++ (bytesOf (uleb128 10 row.length) ++
    (bytesOf (uleb128 10 row.landingPad) ++ bytesOf (uleb128 10 (first + 1))))

/-- The call sites whose chains follow one another from an offset on. -/
def sitesCells : Nat → List LSDARow → List LSDACell
  | _, [] => []
  | first, row :: rows =>
    siteCells first row ++ sitesCells (first + (chainCells row.filters).length) rows

/-- The action table. -/
def chainsCells (rows : List LSDARow) : List LSDACell :=
  rows.flatMap fun row => chainCells row.filters

theorem length_uleb128_pos (value : Nat) : 1 ≤ (uleb128 10 value).length := by
  rw [uleb128]
  split
  · exact Nat.le_refl 1
  · exact Nat.le_add_left 1 _

theorem length_sitesCells_ge (first : Nat) (rows : List LSDARow) :
    rows.length ≤ (sitesCells first rows).length := by
  induction rows generalizing first with
  | nil => exact Nat.le_refl 0
  | cons row rows ih =>
    have here := length_uleb128_pos row.start
    have later := ih (first + (chainCells row.filters).length)
    rw [sitesCells, List.length_append, siteCells, List.length_append, length_bytesOf,
      List.length_cons]
    omega

/-- What a table of types and a row must satisfy to be read back. -/
structure LSDARow.Readable (typeSymbols : List (Option String)) (row : LSDARow) : Prop where
  start : row.start < 2 ^ 64
  length : row.length < 2 ^ 64
  landingPad : row.landingPad < 2 ^ 64
  nonempty : row.filters ≠ []
  covered : ∀ filter ∈ row.filters, 0 ≤ filter ∧ filter ≤ typeSymbols.length

/-- The call site that a row stands for. -/
def LSDARow.site (typeSymbols : List (Option String)) (row : LSDARow) : LSDACallSite :=
  ⟨row.start, row.length, row.landingPad, row.filters.map (meaningOf typeSymbols)⟩

/-- The four numbers of a call site are read in turn. -/
theorem readSite_between {typeSymbols : List (Option String)} {row : LSDARow} {first : Nat}
    (readable : row.Readable typeSymbols) (small : first + 1 < 2 ^ 64)
    (before after cells : List LSDACell)
    (placed : cells = before ++ (siteCells first row ++ after)) :
    ∃ second third fourth, readUnsigned cells before.length = some (row.start, second) ∧
      readUnsigned cells second = some (row.length, third) ∧
      readUnsigned cells third = some (row.landingPad, fourth) ∧
      readUnsigned cells fourth =
        some (first + 1, (before ++ siteCells first row).length) := by
  have start := readUnsigned_between readable.start before
    (bytesOf (uleb128 10 row.length) ++ (bytesOf (uleb128 10 row.landingPad) ++
      (bytesOf (uleb128 10 (first + 1)) ++ after)))
  have length := readUnsigned_between readable.length (before ++ bytesOf (uleb128 10 row.start))
    (bytesOf (uleb128 10 row.landingPad) ++ (bytesOf (uleb128 10 (first + 1)) ++ after))
  have landingPad := readUnsigned_between readable.landingPad
    (before ++ bytesOf (uleb128 10 row.start) ++ bytesOf (uleb128 10 row.length))
    (bytesOf (uleb128 10 (first + 1)) ++ after)
  have action := readUnsigned_between small (before ++ bytesOf (uleb128 10 row.start) ++
    bytesOf (uleb128 10 row.length) ++ bytesOf (uleb128 10 row.landingPad)) after
  simp only [siteCells, List.append_assoc] at placed
  simp only [List.append_assoc, List.length_append, length_bytesOf, Nat.add_assoc, ← placed]
    at start length landingPad action
  refine ⟨_, _, _, start, length, landingPad, ?_⟩
  simp [siteCells, length_bytesOf, action]

/-- Call sites are decoded each to its own chain, where those that are read already have theirs
before the others. -/
theorem readCallSites_between {typeSymbols : List (Option String)} {typeEnd actionTable : Nat}
    (rows : List LSDARow) (before done after cells : List LSDACell) (steps : Nat)
    (readable : ∀ row ∈ rows, row.Readable typeSymbols)
    (placed : cells = before ++ (sitesCells done.length rows ++ (done ++ (chainsCells rows ++
      after)))) (table : actionTable = before.length + (sitesCells done.length rows).length)
    (small : done.length + (chainsCells rows).length < 2 ^ 63)
    (decoded : ∀ filter : ℤ, 0 ≤ filter → filter ≤ typeSymbols.length →
      filterMeaning cells typeEnd filter = some (meaningOf typeSymbols filter))
    (manyTypes : typeSymbols.length < 2 ^ 63) (enough : rows.length < steps) :
    readCallSites cells typeEnd actionTable steps before.length =
      some (rows.map (LSDARow.site typeSymbols)) := by
  induction rows generalizing before done steps with
  | nil =>
    obtain ⟨steps, rfl⟩ := Nat.exists_eq_add_of_le' (Nat.one_le_of_lt enough)
    rw [readCallSites, if_neg (by rw [table]; exact Nat.lt_irrefl _)]
    rfl
  | cons row rows ih =>
    obtain ⟨steps, rfl⟩ := Nat.exists_eq_add_of_le' (Nat.one_le_of_lt enough)
    have isReadable := readable row List.mem_cons_self
    have unfolded : chainsCells (row :: rows) = chainCells row.filters ++ chainsCells rows := rfl
    rw [unfolded, List.length_append] at small
    simp only [sitesCells, unfolded, List.append_assoc] at placed
    rw [sitesCells, List.length_append] at table
    obtain ⟨second, third, fourth, start, length, landingPad, action⟩ :=
      @readSite_between typeSymbols row done.length isReadable (by omega) before _ cells placed
    have chain := readActions_between row.filters
      (before ++ (siteCells done.length row ++ (sitesCells (done.length +
        (chainCells row.filters).length) rows ++ done))) (chainsCells rows ++ after) cells
      cells.length (by rw [placed]; simp only [List.append_assoc]) isReadable.nonempty
      (fun filter member => by
        have covered := isReadable.covered filter member
        constructor <;> omega)
      (fun filter member => decoded filter (isReadable.covered filter member).1
        (isReadable.covered filter member).2)
      (by
        have chained := length_chainCells_pos row.filters
        rw [placed]
        simp only [List.length_append]
        omega)
    have chainStart : actionTable + (done.length + 1) - 1 =
        (before ++ (siteCells done.length row ++ (sitesCells (done.length +
          (chainCells row.filters).length) rows ++ done))).length := by
      simp only [List.length_append]
      omega
    have rest := ih (before ++ siteCells done.length row) (done ++ chainCells row.filters) steps
      (fun other member => readable other (List.mem_cons_of_mem _ member))
      (by rw [placed]; simp only [List.append_assoc, List.length_append])
      (by rw [table]; simp only [List.length_append]; omega)
      (by rw [List.length_append]; omega)
      (by rw [List.length_cons] at enough; omega)
    have sitePos := length_sitesCells_ge done.length [row]
    rw [sitesCells, sitesCells, List.append_nil, List.length_singleton] at sitePos
    rw [← chainStart] at chain
    rw [readCallSites, if_pos (by rw [table]; omega)]
    simp only [Option.bind_eq_bind, Option.bind_some, start, length, landingPad, action,
      readChain, if_neg (Nat.succ_ne_zero _), chain, rest]
    rfl

/-- A table from the encoding of its call sites on. -/
def bodyCells (typeSymbols : List (Option String)) (rows : List LSDARow) : List LSDACell :=
  .byte dwEhPeUleb128 :: (bytesOf (uleb128 10 (sitesCells 0 rows).length) ++
    (sitesCells 0 rows ++ (chainsCells rows ++ typeTableCells typeSymbols)))

def tableCells (typeSymbols : List (Option String)) (rows : List LSDARow) : List LSDACell :=
  .byte dwEhPeOmit ::
    ((if typeSymbols.length > 0 then
        .byte dwEhPePcrelSdata4 :: bytesOf (uleb128 10 (bodyCells typeSymbols rows).length)
      else [.byte dwEhPeOmit]) ++ bodyCells typeSymbols rows)

/-- The rest of a header is read where it is, after the part about the types. -/
theorem decode_body {typeSymbols : List (Option String)} {rows : List LSDARow} {typeEnd : Nat}
    (readable : ∀ row ∈ rows, row.Readable typeSymbols)
    (small : (bodyCells typeSymbols rows).length < 2 ^ 63) (before after cells : List LSDACell)
    (placed : cells = before ++ (bodyCells typeSymbols rows ++ after))
    (typesEnd : typeSymbols = [] ∨ typeEnd = (before ++ bodyCells typeSymbols rows).length) :
    byteAt cells before.length = some dwEhPeUleb128 ∧
      ∃ size next, readUnsigned cells (before.length + 1) = some (size, next) ∧
        readCallSites cells typeEnd (next + size) cells.length next =
          some (rows.map (LSDARow.site typeSymbols)) := by
  have sizes : (bodyCells typeSymbols rows).length =
      1 + (uleb128 10 (sitesCells 0 rows).length).length + (sitesCells 0 rows).length +
        (chainsCells rows).length + 4 * typeSymbols.length := by
    simp only [bodyCells, List.length_cons, List.length_append, length_bytesOf,
      length_typeTableCells]
    omega
  have manySites := length_sitesCells_ge 0 rows
  have header := readUnsigned_between (show (sitesCells 0 rows).length < 2 ^ 64 by omega)
    (before ++ [.byte dwEhPeUleb128]) (sitesCells 0 rows ++ (chainsCells rows ++
      (typeTableCells typeSymbols ++ after)))
  have same : cells = before ++ [.byte dwEhPeUleb128] ++ (bytesOf (uleb128 10
      (sitesCells 0 rows).length) ++ (sitesCells 0 rows ++ (chainsCells rows ++
        (typeTableCells typeSymbols ++ after)))) := by
    rw [placed, bodyCells]
    simp
  rw [← same, List.length_append, List.length_singleton] at header
  constructor
  · rw [byteAt, same, List.append_assoc, List.drop_left]
    rfl
  refine ⟨_, _, header, ?_⟩
  have read := @readCallSites_between typeSymbols typeEnd (before.length + 1 +
      (uleb128 10 (sitesCells 0 rows).length).length + (sitesCells 0 rows).length) rows
    (before ++ [.byte dwEhPeUleb128] ++ bytesOf (uleb128 10 (sitesCells 0 rows).length)) []
    (typeTableCells typeSymbols ++ after) cells cells.length readable
    (by rw [same]; simp only [List.append_assoc, List.length_nil, List.nil_append])
    (by simp only [List.length_append, List.length_singleton, length_bytesOf, List.length_nil])
    (by rw [List.length_nil]; omega)
    (fun filter nonnegative covered => by
      rcases typesEnd with none | typesEnd
      · have zero : filter = 0 := by
          rw [none, List.length_nil] at covered
          omega
        rw [filterMeaning, meaningOf, if_pos zero, if_pos zero]
      · have meaning := filterMeaning_between nonnegative covered
          (before ++ [LSDACell.byte dwEhPeUleb128] ++ bytesOf (uleb128 10 (sitesCells 0 rows).length) ++
            sitesCells 0 rows ++ chainsCells rows) after
        have whole : before ++ [LSDACell.byte dwEhPeUleb128] ++ bytesOf (uleb128 10
            (sitesCells 0 rows).length) ++ sitesCells 0 rows ++ chainsCells rows ++
            (typeTableCells typeSymbols ++ after) = cells := by
          rw [same]
          simp
        have ending : (before ++ [LSDACell.byte dwEhPeUleb128] ++ bytesOf (uleb128 10
            (sitesCells 0 rows).length) ++ sitesCells 0 rows ++ chainsCells rows).length +
            4 * typeSymbols.length = typeEnd := by
          rw [typesEnd, @List.length_append _ before, sizes]
          simp only [List.length_append, List.length_singleton, length_bytesOf]
          omega
        rw [whole, ending] at meaning
        exact meaning)
    (by omega)
    (by
      rw [same]
      simp only [List.length_append, List.length_singleton]
      omega)
  simp only [List.length_append, List.length_singleton, length_bytesOf] at read
  exact read

/-- A table is decoded to the call sites that its rows stand for. -/
theorem decode_table {rows : List LSDARow} (readable : ∀ row ∈ rows, row.Readable typeSymbols)
    (small : (bodyCells typeSymbols rows).length < 2 ^ 63) (after : List LSDACell) :
    decodeLSDA (tableCells typeSymbols rows ++ after) =
      some (rows.map (LSDARow.site typeSymbols)) := by
  have nonempty : tableCells typeSymbols rows ++ after ≠ [] := List.cons_ne_nil _ _
  have first : byteAt (tableCells typeSymbols rows ++ after) 0 = some dwEhPeOmit := rfl
  rw [decodeLSDA, if_neg nonempty, first, Option.bind_eq_bind, Option.bind_some,
    if_neg (not_not_intro rfl)]
  cases typeSymbols with
  | nil =>
    obtain ⟨encoding, size, next, header, read⟩ := @decode_body [] rows 0 readable small
      [.byte dwEhPeOmit, .byte dwEhPeOmit] after (tableCells [] rows ++ after) rfl (.inl rfl)
    have typeEnd : readTypeEnd (tableCells [] rows ++ after) = some (0, 2) := rfl
    rw [typeEnd, Option.bind_eq_bind, Option.bind_some]
    simp only [List.length_cons, List.length_nil, Nat.zero_add] at encoding header
    simp only [Option.bind_some, encoding, if_neg (not_not_intro rfl), header, read]
  | cons type types =>
    have whole : tableCells (type :: types) rows ++ after =
        LSDACell.byte dwEhPeOmit :: .byte dwEhPePcrelSdata4 ::
          (bytesOf (uleb128 10 (bodyCells (type :: types) rows).length) ++
            (bodyCells (type :: types) rows ++ after)) := by
      rw [tableCells, if_pos (show (type :: types).length > 0 from Nat.succ_pos _)]
      simp only [List.cons_append, List.append_assoc]
    have sizeRead := readUnsigned_between
      (show (bodyCells (type :: types) rows).length < 2 ^ 64 by omega)
      [.byte dwEhPeOmit, .byte dwEhPePcrelSdata4] (bodyCells (type :: types) rows ++ after)
    simp only [List.cons_append, List.nil_append, List.length_cons, List.length_nil,
      Nat.zero_add, Nat.reduceAdd, ← whole] at sizeRead
    obtain ⟨encoding, size, next, header, read⟩ := @decode_body (type :: types) rows
      (2 + (uleb128 10 (bodyCells (type :: types) rows).length).length +
        (bodyCells (type :: types) rows).length) readable small
      (.byte dwEhPeOmit :: .byte dwEhPePcrelSdata4 ::
        bytesOf (uleb128 10 (bodyCells (type :: types) rows).length)) after
      (tableCells (type :: types) rows ++ after) whole
      (.inr (by simp only [List.length_append, List.length_cons, length_bytesOf]; omega))
    have second : byteAt (tableCells (type :: types) rows ++ after) 1 =
        some dwEhPePcrelSdata4 := by
      rfl
    have typeEnd : readTypeEnd (tableCells (type :: types) rows ++ after) =
        some (2 + (uleb128 10 (bodyCells (type :: types) rows).length).length +
          (bodyCells (type :: types) rows).length,
          2 + (uleb128 10 (bodyCells (type :: types) rows).length).length) := by
      simp only [readTypeEnd, Option.bind_eq_bind, Option.bind_some, second, sizeRead]
      rfl
    have place : (LSDACell.byte dwEhPeOmit :: .byte dwEhPePcrelSdata4 ::
        bytesOf (uleb128 10 (bodyCells (type :: types) rows).length)).length =
        2 + (uleb128 10 (bodyCells (type :: types) rows).length).length := by
      rw [List.length_cons, List.length_cons, length_bytesOf]
      omega
    rw [place] at encoding header
    simp only [Option.bind_eq_bind, Option.bind_some, typeEnd, encoding,
      if_neg (not_not_intro rfl), header, read]

end DaveCC.Backend
