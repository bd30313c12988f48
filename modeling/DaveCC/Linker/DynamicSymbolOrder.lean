import DaveCC.Linker.DynamicSymbols

/-!
# The order of the dynamic symbols

What the steps of building the dynamic symbol table leave: the fixups and their strings as
they are collected, the undefined symbols before the defined ones in the order of their
buckets, and the written symbol at the place of its fixup.
-/

namespace DaveCC.Linking

open DaveCC.Container

/-- The fixups of symbols whose strings follow one another from an offset. -/
def fixupsFrom : Nat → List LinkerSymbol → List DynamicSymbolFixup
  | _, [] => []
  | start, symbol :: symbols =>
    { nameOffset := BitVec.ofNat 32 start
      hash := dynamicLoaderGNUHash symbol.name
      symbol := symbol } ::
      fixupsFrom (start + (terminated symbol.name).length) symbols

/-- The strings of symbols. -/
def stringsOf (symbols : List LinkerSymbol) : List (BitVec 8) :=
  symbols.flatMap fun symbol => terminated symbol.name

@[simp] theorem stringsOf_append (earlier later : List LinkerSymbol) :
    stringsOf (earlier ++ later) = stringsOf earlier ++ stringsOf later :=
  List.flatMap_append

theorem map_symbol_fixupsFrom (start : Nat) (symbols : List LinkerSymbol) :
    (fixupsFrom start symbols).map DynamicSymbolFixup.symbol = symbols := by
  induction symbols generalizing start with
  | nil => rfl
  | cons symbol symbols ih => rw [fixupsFrom, List.map_cons, ih]

theorem length_fixupsFrom (start : Nat) (symbols : List LinkerSymbol) :
    (fixupsFrom start symbols).length = symbols.length := by
  rw [← List.length_map DynamicSymbolFixup.symbol, map_symbol_fixupsFrom]

/-- A fixup says where the string of its symbol is. -/
theorem mem_fixupsFrom {start : Nat} {symbols : List LinkerSymbol} {fixup : DynamicSymbolFixup}
    (member : fixup ∈ fixupsFrom start symbols) :
    ∃ earlier later, symbols = earlier ++ fixup.symbol :: later ∧
      fixup.nameOffset = BitVec.ofNat 32 (start + (stringsOf earlier).length) ∧
      fixup.hash = dynamicLoaderGNUHash fixup.symbol.name := by
  induction symbols generalizing start with
  | nil => cases member
  | cons symbol symbols ih =>
    rcases List.mem_cons.mp member with rfl | inRest
    · exact ⟨[], symbols, rfl, rfl, rfl⟩
    · obtain ⟨earlier, later, split, offset, hash⟩ := ih inRest
      refine ⟨symbol :: earlier, later, by rw [split]; rfl, ?_, hash⟩
      rw [offset, stringsOf, stringsOf, List.flatMap_cons, List.length_append, Nat.add_assoc]

/-- Every symbol of the table has its fixup. -/
theorem exists_mem_fixupsFrom (start : Nat) (earlier later : List LinkerSymbol)
    (symbol : LinkerSymbol) :
    { nameOffset := BitVec.ofNat 32 (start + (stringsOf earlier).length)
      hash := dynamicLoaderGNUHash symbol.name
      symbol := symbol } ∈ fixupsFrom start (earlier ++ symbol :: later) := by
  induction earlier generalizing start with
  | nil => exact List.mem_cons_self
  | cons first earlier ih =>
    have inRest := ih (start + (terminated first.name).length)
    rw [Nat.add_assoc, ← List.length_append] at inRest
    exact List.mem_cons_of_mem _ inRest

theorem foldl_addSymbol (symbols : List LinkerSymbol) (info : DynamicSymbolTableInfo) :
    symbols.foldl DynamicSymbolTableInfo.addSymbol info =
      { dynstr := info.dynstr ++ stringsOf (symbols.filter fun symbol => !symbol.isAnchor)
        fixups := info.fixups ++
          fixupsFrom info.dynstr.length (symbols.filter fun symbol => !symbol.isAnchor) } := by
  induction symbols generalizing info with
  | nil => simp only [List.foldl_nil, List.filter_nil, stringsOf, List.flatMap_nil, fixupsFrom,
      List.append_nil]
  | cons symbol symbols ih =>
    rw [List.foldl_cons, ih, DynamicSymbolTableInfo.addSymbol]
    cases anchor : symbol.isAnchor with
    | true =>
      rw [if_pos rfl, List.filter_cons_of_neg (by simp [anchor])]
    | false =>
      rw [if_neg Bool.false_ne_true, List.filter_cons_of_pos (by simp [anchor])]
      simp [fixupsFrom, stringsOf]

variable {globals : GlobalSymbolTable} {strings : List (BitVec 8)}

/-- The collected table. -/
theorem dynamicSymbols_eq :
    globals.dynamicSymbols strings =
      { dynstr := 0 :: strings ++ stringsOf globals.exported
        fixups := .null :: fixupsFrom (0 :: strings).length globals.exported } := by
  have flat : globals.dynamicSymbols strings =
      globals.symbols.foldl DynamicSymbolTableInfo.addSymbol
        { dynstr := 0 :: strings, fixups := [.null] } :=
    List.foldl_flatten.symm
  rw [flat, foldl_addSymbol]
  rfl

theorem exported_distinct : (globals.exported.map LinkerSymbol.name).Nodup :=
  globals.distinct.sublist (List.filter_sublist.map _)

def DynamicSymbolFixup.bucket (numGnuBuckets : BitVec 32) (fixup : DynamicSymbolFixup) : Nat :=
  (fixup.hash % numGnuBuckets).toNat

/-- The order in which `SortDynamicSymbolTable` leaves the fixups after the null symbol. -/
structure Divided (numGnuBuckets : BitVec 32) (fixups sorted : List DynamicSymbolFixup)
    (undefined defined : List DynamicSymbolFixup) (firstDefined : Nat) : Prop where
  eq : sorted = .null :: (undefined ++ defined)
  perm : (undefined ++ defined).Perm fixups
  isUndefined : ∀ fixup ∈ undefined, fixup.isUndefined = true
  isDefined : ∀ fixup ∈ defined, fixup.isUndefined = false
  firstDefined : firstDefined = undefined.length + 1
  ordered : defined.Pairwise fun first second =>
    first.bucket numGnuBuckets ≤ second.bucket numGnuBuckets

section Sorting

variable {numGnuBuckets : BitVec 32} {fixups defined sorted : List DynamicSymbolFixup}
  {firstDefined : Nat} (positive : 0 < numGnuBuckets.toNat)
  (representable : numGnuBuckets.toNat < 2 ^ 31)
include positive representable

omit representable in
theorem DynamicSymbolFixup.bucket_lt (fixup : DynamicSymbolFixup) :
    fixup.bucket numGnuBuckets < numGnuBuckets.toNat := by
  rw [bucket, BitVec.toNat_umod]
  exact Nat.mod_lt _ positive

/-- The comparison is the difference of the buckets. -/
theorem compareSymbolFixup_eq (first second : DynamicSymbolFixup) :
    compareSymbolFixup numGnuBuckets first second =
      (first.bucket numGnuBuckets : ℤ) - second.bucket numGnuBuckets := by
  have firstBelow := first.bucket_lt positive
  have secondBelow := second.bucket_lt positive
  rw [DynamicSymbolFixup.bucket] at firstBelow secondBelow
  rw [compareSymbolFixup, BitVec.toInt_sub, BitVec.toInt_eq_toNat_of_lt (by omega),
    BitVec.toInt_eq_toNat_of_lt (by omega), Int.bmod_eq_of_le (by omega) (by omega)]
  rfl

/-- Every outcome of the sort is in the order of the buckets. -/
theorem pairwise_of_qsorted (outcome : Qsorted (compareSymbolFixup numGnuBuckets) defined sorted) :
    sorted.Pairwise fun first second =>
      first.bucket numGnuBuckets ≤ second.bucket numGnuBuckets := by
  have follows : Follows (compareSymbolFixup numGnuBuckets)
      (fun fixup => (fixup.bucket numGnuBuckets : ℤ)) defined := by
    intro first _ second _ (less : (first.bucket numGnuBuckets : ℤ) < second.bucket numGnuBuckets)
    simp only [compareSymbolFixup_eq positive representable]
    omega
  have ties : Ties (compareSymbolFixup numGnuBuckets)
      (fun fixup => (fixup.bucket numGnuBuckets : ℤ)) defined := by
    intro first _ second _ (same : (first.bucket numGnuBuckets : ℤ) = second.bucket numGnuBuckets)
    simp only [compareSymbolFixup_eq positive representable]
    omega
  exact (outcome.sorted_of_follows follows ties).imp Int.ofNat_le.mp

/-- The sort leaves the undefined symbols before the defined ones, and these in the order of
their buckets. -/
theorem SortDynamicSymbolTable.divided
    (sorts : SortDynamicSymbolTable numGnuBuckets (.null :: fixups) sorted firstDefined) :
    ∃ undefined defined,
      Divided numGnuBuckets fixups sorted undefined defined firstDefined := by
  cases sorts with
  | undefined all =>
    refine ⟨fixups, [], ?_, ?_, all, ?_, rfl, .nil⟩
    · rw [List.append_nil]
    · rw [List.append_nil]
    · intro fixup member
      cases member
  | @sorted index _ divided defined found partitioned outcome =>
    rw [List.tail_cons, List.findIdx?_eq_some_iff_getElem] at found
    obtain ⟨inside, isDefined, before⟩ := found
    have split : fixups = fixups.take index ++ fixups[index] :: fixups.drop (index + 1) := by
      rw [List.cons_getElem_drop_succ, List.take_append_drop]
    have isSecond : DynamicSymbolFixup.isUndefined fixups[index] = false := by
      simpa using isDefined
    have isFirst : ∀ fixup ∈ fixups.take index, fixup.isUndefined = true := by
      intro fixup member
      obtain ⟨place, placeLt, rfl⟩ := List.getElem_of_mem member
      rw [List.length_take] at placeLt
      simpa using before place (by omega)
    obtain ⟨others, perm, result⟩ := partitionFrom_split (.null :: fixups.take index)
      (fixups.drop (index + 1)) fixups[index] isSecond
    have placed : (DynamicSymbolFixup.null :: fixups.take index).length = index + 1 := by
      rw [List.length_cons, List.length_take, min_eq_left inside.le]
    rw [placed, List.cons_append, ← split, partitioned] at result
    obtain ⟨rfl, rfl⟩ := Prod.mk.inj result
    rw [List.drop_left] at outcome
    have inSecond := outcome.perm.trans perm
    refine ⟨fixups.take index ++ (fixups.drop (index + 1)).filter DynamicSymbolFixup.isUndefined,
      defined, ?_, ?_, ?_, ?_, rfl, pairwise_of_qsorted positive representable outcome⟩
    · rw [List.take_left]
      rfl
    · rw [List.append_assoc]
      conv_rhs => rw [split]
      apply List.Perm.append_left
      apply (List.Perm.append_left _ inSecond).trans
      rw [List.filter_cons_of_pos (by simpa using isSecond)]
      apply List.perm_middle.trans
      exact (List.filter_append_perm _ _).cons _
    · intro fixup member
      rcases List.mem_append.mp member with early | late
      · exact isFirst fixup early
      · exact (List.mem_filter.mp late).2
    · intro fixup member
      simpa using (List.mem_filter.mp (inSecond.mem_iff.mp member)).2

end Sorting

/-! ## Written symbols -/

/-- What writing some fixups from an index on does to the table. -/
structure WritesFrom (output : OutputSections) (now : LinkerSymbol → LinkerSymbol)
    (start : Nat) (fixups : List DynamicSymbolFixup) (before after : DynamicSymbolTable) :
    Prop where
  length : after.dynsym.length = before.dynsym.length
  untouched : ∀ index, index < start → after.dynsym[index]? = before.dynsym[index]?
  dynsym : ∀ index (fixup : DynamicSymbolFixup), fixups[index]? = some fixup →
    after.dynsym[start + index]? = some (output.dynamicSymbol fixup.nameOffset (now fixup.symbol))
  dynamicIndex : ∀ index (fixup : DynamicSymbolFixup), fixups[index]? = some fixup →
    after.dynamicIndex fixup.symbol.name = (BitVec.ofNat 32 (start + index)).toInt
  unnamed : ∀ name, name ∉ fixups.map (·.symbol.name) →
    after.dynamicIndex name = before.dynamicIndex name

section Writing

variable {output : OutputSections} {now : LinkerSymbol → LinkerSymbol}

/-- Writing one fixup before the others, none of which has its name. -/
theorem WritesFrom.cons {start : Nat} {fixup : DynamicSymbolFixup}
    {fixups : List DynamicSymbolFixup} {before after : DynamicSymbolTable}
    (rest : WritesFrom output now (start + 1) fixups (output.fixupSymbol now before (fixup,
      start)) after) (room : start < before.dynsym.length)
    (fresh : fixup.symbol.name ∉ fixups.map (·.symbol.name)) :
    WritesFrom output now start (fixup :: fixups) before after where
  length := rest.length.trans List.length_set
  untouched index below := by
    rw [rest.untouched index (by omega)]
    exact List.getElem?_set_ne (by omega)
  dynsym index wanted present := by
    cases index with
    | zero =>
      obtain rfl := Option.some.inj present
      rw [Nat.add_zero, rest.untouched start (by omega)]
      exact List.getElem?_set_self room
    | succ index =>
      rw [show start + (index + 1) = start + 1 + index by omega]
      exact rest.dynsym index wanted present
  dynamicIndex index wanted present := by
    cases index with
    | zero =>
      obtain rfl := Option.some.inj present
      rw [rest.unnamed fixup.symbol.name fresh]
      exact Function.update_self _ _ _
    | succ index =>
      rw [show start + (index + 1) = start + 1 + index by omega]
      exact rest.dynamicIndex index wanted present
  unnamed name absent := by
    rw [List.map_cons, List.mem_cons, not_or] at absent
    rw [rest.unnamed name absent.2]
    exact Function.update_of_ne absent.1 _ _

/-- Writing fixups with distinct names into a table with room for them. -/
theorem writesFrom_foldl {start : Nat} {fixups : List DynamicSymbolFixup}
    {before : DynamicSymbolTable} (room : start + fixups.length ≤ before.dynsym.length)
    (distinct : (fixups.map (·.symbol.name)).Nodup) :
    WritesFrom output now start fixups before
      ((fixups.zipIdx start).foldl (output.fixupSymbol now) before) := by
  induction fixups generalizing start before with
  | nil =>
    constructor
    case length => rfl
    case untouched => intro index _; rfl
    case dynsym => intro index fixup present; cases present
    case dynamicIndex => intro index fixup present; cases present
    case unnamed => intro name _; rfl
  | cons fixup fixups ih =>
    rw [List.map_cons, List.nodup_cons] at distinct
    rw [List.length_cons] at room
    have stepLength :
        (output.fixupSymbol now before (fixup, start)).dynsym.length = before.dynsym.length :=
      List.length_set
    exact (ih (by rw [stepLength]; omega) distinct.2).cons (by omega) distinct.1

/-- The written table: the null symbol, and the symbol of every fixup at its place. -/
theorem writesFrom_fixupDynamicSymbolTable {fixups : List DynamicSymbolFixup}
    (distinct : (fixups.map (·.symbol.name)).Nodup) :
    WritesFrom output now 1 fixups
      { dynsym := List.replicate (fixups.length + 1) .null, dynamicIndex := fun _ => -1 }
      (output.fixupDynamicSymbolTable now (.null :: fixups)) :=
  writesFrom_foldl (by rw [List.length_replicate]; omega) distinct

end Writing

/-- A number that tells names of at most two bytes apart. -/
def shortNameCode : Name → Nat
  | [] => 0
  | [first] => 1 + first.toNat
  | first :: second :: _ => 257 + 256 * first.toNat + second.toNat

theorem shortNameCode_lt {name : Name} (short : name.length ≤ 2) : shortNameCode name < 65793 := by
  match name, short with
  | [], _ => decide
  | [first], _ =>
    rw [shortNameCode]
    omega
  | [first, second], _ =>
    rw [shortNameCode]
    omega

theorem shortNameCode_injective {first second : Name} (firstShort : first.length ≤ 2)
    (secondShort : second.length ≤ 2) (same : shortNameCode first = shortNameCode second) :
    first = second := by
  match first, second, firstShort, secondShort with
  | [], [], _, _ => rfl
  | [], [_], _, _ => simp only [shortNameCode] at same; omega
  | [], [_, _], _, _ => simp only [shortNameCode] at same; omega
  | [_], [], _, _ => simp only [shortNameCode] at same; omega
  | [first], [second], _, _ =>
    simp only [shortNameCode] at same
    rw [BitVec.eq_of_toNat_eq (show first.toNat = second.toNat by omega)]
  | [_], [_, _], _, _ => simp only [shortNameCode] at same; omega
  | [_, _], [], _, _ => simp only [shortNameCode] at same; omega
  | [_, _], [_], _, _ => simp only [shortNameCode] at same; omega
  | [first, first'], [second, second'], _, _ =>
    simp only [shortNameCode] at same
    rw [BitVec.eq_of_toNat_eq (show first.toNat = second.toNat by omega),
      BitVec.eq_of_toNat_eq (show first'.toNat = second'.toNat by omega)]

variable {names : List Name}

/-- There are few short names. -/
theorem length_le_of_short (distinct : names.Nodup) (short : ∀ name ∈ names, name.length ≤ 2) :
    names.length ≤ 65793 := by
  have codes : (names.map shortNameCode).Nodup := by
    apply List.Nodup.map_on _ distinct
    intro first firstMem second secondMem same
    exact shortNameCode_injective (short first firstMem) (short second secondMem) same
  have below : names.map shortNameCode ⊆ List.range 65793 := by
    intro code member
    obtain ⟨name, nameMem, rfl⟩ := List.mem_map.mp member
    exact List.mem_range.mpr (shortNameCode_lt (short name nameMem))
  have atMost := (List.subperm_of_subset codes below).length_le
  rwa [List.length_map, List.length_range] at atMost

/-- Names take at least four bytes each, but for the short ones. -/
theorem four_mul_length_le_add (names : List Name) :
    4 * names.length ≤ (names.flatMap terminated).length +
      4 * (names.filter fun name => name.length ≤ 2).length := by
  induction names with
  | nil => exact Nat.zero_le _
  | cons name names ih =>
    rw [List.flatMap_cons, List.length_append, terminated, List.length_append,
      List.length_singleton, List.length_cons]
    by_cases short : name.length ≤ 2
    · rw [List.filter_cons_of_pos (by simpa using short), List.length_cons]
      omega
    · rw [List.filter_cons_of_neg (by simpa using short)]
      omega

/-- Distinct names take at least four bytes each, but for few. -/
theorem four_mul_length_le (distinct : names.Nodup) :
    4 * names.length ≤ (names.flatMap terminated).length + 4 * 65793 := by
  have few := length_le_of_short (distinct.filter fun name => name.length ≤ 2) (by
    intro name member
    simpa using (List.mem_filter.mp member).2)
  have bytes := four_mul_length_le_add names
  omega

end DaveCC.Linking
