import DaveCC.Linker.SymbolRules

/-!
# How symbols are resolved

What the entry of a name is after any run of `LinkerReadSymbol`, by induction on the
occurrences of the name, and when that is what the rules say.
-/

namespace DaveCC.Linking

open DaveCC.Container Occurrence

/-- What an occurrence makes of the entry of its name, and whether it is reported. -/
def meet (name : Name) (occurrence : Occurrence) : Option LinkerSymbol → LinkerSymbol × Bool
  | none =>
    ({ newLinkerSymbol occurrence.symbol (some occurrence.file) name with
        defined := occurrence.symbol.shndx != 0, address := occurrence.symbol.value
        definingSection := symbolSection occurrence.file occurrence.symbol }, false)
  | some symbol =>
    match redefinition symbol occurrence.file occurrence.symbol with
    | .keep => (symbol, false)
    | .change changed => (changed, false)
    | .define => (symbol.define occurrence.file occurrence.symbol, false)
    | .multiple => (symbol, true)

section Reading

variable {linker : Linker} {name other : Name} {file : FileId} {change : LinkerSymbol → LinkerSymbol}

/-- What a link knows of a name. -/
def Linker.knows (name : Name) (linker : Linker) : Option LinkerSymbol × Bool :=
  (linker.globalSymbolTable.find name, linker.reports name)

@[simp] theorem knows_updateFile (edit : ObjectFile → ObjectFile) :
    (linker.updateFile file edit).knows name = linker.knows name :=
  rfl

theorem reports_addError (format : String) (argument : Name) :
    (linker.addError (some file) format argument).reports name =
      (linker.reports name || (format == duplicateFormat && argument == name)) := by
  rw [Linker.reports, Linker.addError, List.any_append, List.any_cons, List.any_nil, Bool.or_false,
    Linker.reports]

theorem find_insertSymbol (nonempty : linker.globalSymbolTable.entries ≠ [])
    (symbol : LinkerSymbol) :
    (linker.globalSymbolTable.insertSymbol symbol).find name =
      (linker.globalSymbolTable.find name).or (if symbol.name = name then some symbol else none) :=
  HashTable.search_insert nonempty

theorem find_update (nonempty : linker.globalSymbolTable.entries ≠ [])
    (keeps : ∀ symbol, symbol.name = name → (change symbol).name = name) :
    (linker.globalSymbolTable.update name change).find other =
      if other = name then (linker.globalSymbolTable.find other).map change
      else linker.globalSymbolTable.find other :=
  HashTable.search_modify nonempty keeps

theorem name_of_find {symbol : LinkerSymbol}
    (found : linker.globalSymbolTable.find name = some symbol) : symbol.name = name :=
  HashTable.key_of_search found

theorem name_of_change {symbol changed : LinkerSymbol} {elfSym : ELFSymbol}
    (changes : redefinition symbol file elfSym = .change changed) : changed.name = symbol.name := by
  rw [redefinition] at changes
  split at changes
  · split at changes
    · split at changes
      · split at changes
        · cases changes
          rfl
        · cases changes
      · repeat' split at changes
        all_goals cases changes
    · cases changes
  · split at changes
    · cases changes
      rfl
    · cases changes

theorem knows_update {symbol changed : LinkerSymbol}
    (nonempty : linker.globalSymbolTable.entries ≠ [])
    (found : linker.globalSymbolTable.find symbol.name = some symbol)
    (sameName : changed.name = symbol.name) :
    { linker with
      globalSymbolTable :=
        linker.globalSymbolTable.update symbol.name fun _ => changed }.knows other =
      if symbol.name = other then (some changed, linker.reports other) else linker.knows other := by
  have lookup : (linker.globalSymbolTable.update symbol.name fun _ => changed).find other =
      if other = symbol.name then (linker.globalSymbolTable.find other).map fun _ => changed
      else linker.globalSymbolTable.find other :=
    find_update nonempty fun _ _ => sameName
  rw [Linker.knows, lookup]
  by_cases same : symbol.name = other
  · subst same
    rw [if_pos rfl, if_pos rfl, found]
    rfl
  · rw [if_neg same, if_neg (Ne.symm same)]
    rfl

/-- A symbol that exists meets an occurrence of its name. -/
theorem knows_redefineSymbol {symbol : LinkerSymbol} (other : Name) (occurrence : Occurrence)
    (nonempty : linker.globalSymbolTable.entries ≠ [])
    (found : linker.globalSymbolTable.find symbol.name = some symbol) :
    (redefineSymbol symbol occurrence.file occurrence.symbol linker).knows other =
      if symbol.name = other then
        (some (meet other occurrence (some symbol)).1,
          linker.reports other || (meet other occurrence (some symbol)).2)
      else linker.knows other := by
  have unchanged : (if symbol.name = other then (some symbol, linker.reports other)
      else linker.knows other) = linker.knows other := by
    split
    · next same =>
        subst same
        rw [Linker.knows, found]
    · rfl
  rw [redefineSymbol, meet]
  cases redefines : redefinition symbol occurrence.file occurrence.symbol with
  | keep =>
    simp only [Bool.or_false]
    exact unchanged.symm
  | change changed =>
    simp only [Bool.or_false]
    exact knows_update nonempty found (name_of_change redefines)
  | define =>
    simp only [Bool.or_false, knows_updateFile]
    exact knows_update nonempty found rfl
  | multiple =>
    rw [Linker.knows, reports_addError]
    by_cases same : symbol.name = other
    · subst same
      rw [if_pos rfl, beq_self_eq_true]
      exact Prod.ext found rfl
    · rw [if_neg same, beq_eq_false_iff_ne.mpr same, Bool.and_false, Bool.or_false]
      rfl

/-- One read: the entry of a name meets its occurrence, and nothing else changes it. -/
theorem knows_read (name : Name) (nonempty : linker.globalSymbolTable.entries ≠ []) (read : SymbolRead) :
    (linkerReadSymbol read.file read.strtab read.symbol linker).knows name =
      match read.occurrence? name with
      | none => linker.knows name
      | some occurrence =>
        (some (meet name occurrence (linker.globalSymbolTable.find name)).1,
          linker.reports name ||
            (meet name occurrence (linker.globalSymbolTable.find name)).2) := by
  rw [linkerReadSymbol, SymbolRead.occurrence?]
  by_cases corrupt : read.strtab.size < read.symbol.name
  · rw [if_pos corrupt, dif_neg fun global => Nat.not_le.mpr corrupt global.1]
    simp only [Linker.knows, reports_addError]
    exact Prod.ext rfl (Bool.or_false _)
  rw [if_neg corrupt]
  by_cases empty : read.strtab.nameOf read.symbol = []
  · rw [if_pos empty, dif_neg fun global => global.2.2.1 (global.2.1.symm.trans empty)]
  rw [if_neg empty]
  by_cases isLocal : read.symbol.binding = stbLocal
  · rw [if_pos isLocal, dif_neg fun global => global.2.2.2 isLocal]
    rfl
  rw [if_neg isLocal]
  let occurrence : Occurrence := ⟨read.file, read.symbol, isLocal, read.commonIsStrong⟩
  have occurs : (if global : read.symbol.name ≤ read.strtab.size ∧
      read.strtab.nameOf read.symbol = name ∧ name ≠ [] ∧ read.symbol.binding ≠ stbLocal then
        some (Occurrence.mk read.file read.symbol global.2.2.2 read.commonIsStrong) else none) =
      if read.strtab.nameOf read.symbol = name then some occurrence else none := by
    by_cases same : read.strtab.nameOf read.symbol = name
    · rw [if_pos same, dif_pos ⟨Nat.not_lt.mp corrupt, same, same ▸ empty, isLocal⟩]
    · rw [if_neg same, dif_neg fun global => same global.2.1]
  rw [occurs]
  cases found : linker.globalSymbolTable.find (read.strtab.nameOf read.symbol) with
  | some symbol =>
    have isNamed := name_of_find found
    rw [← isNamed] at found
    have redefined := knows_redefineSymbol name occurrence nonempty found
    rw [isNamed] at redefined found
    refine redefined.trans ?_
    by_cases same : read.strtab.nameOf read.symbol = name
    · subst same
      rw [if_pos rfl, if_pos rfl, found]
    · rw [if_neg same, if_neg same]
  | none =>
    rw [knows_updateFile]
    simp only [Linker.knows]
    rw [find_insertSymbol nonempty]
    by_cases same : read.strtab.nameOf read.symbol = name
    · subst same
      rw [if_pos rfl, found, Option.none_or]
      exact Prod.ext (if_pos rfl) (Bool.or_false _).symm
    · rw [if_neg same]
      exact Prod.ext ((congrArg _ (if_neg same)).trans Option.or_none) rfl

theorem entries_redefineSymbol (nonempty : linker.globalSymbolTable.entries ≠ [])
    (symbol : LinkerSymbol) (elfSym : ELFSymbol) :
    (redefineSymbol symbol file elfSym linker).globalSymbolTable.entries ≠ [] := by
  have updated (changed : LinkerSymbol) :
      (linker.globalSymbolTable.update symbol.name fun _ => changed).entries ≠ [] :=
    fun empty => nonempty (List.modify_eq_nil_iff.mp empty)
  rw [redefineSymbol]
  cases redefinition symbol file elfSym with
  | keep | multiple => exact nonempty
  | change changed => exact updated changed
  | define => exact updated (symbol.define file elfSym)

/-- The table keeps its entries. -/
theorem entries_read (nonempty : linker.globalSymbolTable.entries ≠ []) (strtab : StringTable)
    (elfSym : ELFSymbol) :
    (linkerReadSymbol file strtab elfSym linker).globalSymbolTable.entries ≠ [] := by
  rw [linkerReadSymbol]
  dsimp only
  split
  · exact nonempty
  split
  · exact nonempty
  split
  · exact nonempty
  cases linker.globalSymbolTable.find (strtab.nameOf elfSym) with
  | some symbol => exact entries_redefineSymbol nonempty symbol elfSym
  | none => exact fun empty => nonempty (List.modify_eq_nil_iff.mp empty)

/-- The occurrences of a name are met in turn. -/
def meetAll (name : Name) (order : List Occurrence) (known : Option LinkerSymbol × Bool) :
    Option LinkerSymbol × Bool :=
  order.foldl (fun known occurrence =>
    (some (meet name occurrence known.1).1, known.2 || (meet name occurrence known.1).2)) known

/-- What a run makes of a name is what its occurrences make of it. -/
theorem knows_readAll (nonempty : linker.globalSymbolTable.entries ≠ []) (reads : List SymbolRead) :
    (linker.readAll reads).knows name =
      meetAll name (occurrencesOf name reads) (linker.knows name) := by
  induction reads generalizing linker with
  | nil => rfl
  | cons read rest ih =>
    have step := knows_read name nonempty read
    refine (ih (entries_read nonempty read.strtab read.symbol)).trans ?_
    rw [step, occurrencesOf, occurrencesOf, List.filterMap_cons]
    cases read.occurrence? name with
    | none => rfl
    | some occurrence => rfl

end Reading

section Redefinition

variable {symbol : LinkerSymbol} {occurrence : Occurrence}

theorem redefinition_reference (reference : occurrence.isDefinition = false)
    (unchanged : symbol.defined = true ∨ symbol.isWeak = false ∨ occurrence.isWeak = true) :
    redefinition symbol occurrence.file occurrence.symbol = .keep := by
  have noSection : occurrence.symbol.shndx = 0 := by simpa [isDefinition] using reference
  rw [redefinition, if_neg (not_not_intro noSection), if_neg]
  intro changes
  simp only [Bool.and_eq_true, Bool.not_eq_true'] at changes
  rcases unchanged with defined | strong | weak
  · exact Bool.false_ne_true (changes.1.1.symm.trans defined)
  · exact Bool.false_ne_true (strong.symm.trans changes.1.2)
  · exact Bool.false_ne_true (changes.2.symm.trans weak)

theorem redefinition_strongReference (reference : occurrence.isStrongReference = true)
    (undefined : symbol.defined = false) (weak : symbol.isWeak = true) :
    redefinition symbol occurrence.file occurrence.symbol =
      .change { symbol with
        header := occurrence.symbol, size := occurrence.symbol.size, file := some occurrence.file } := by
  simp only [isStrongReference, isDefinition, Occurrence.isWeak,
    Bool.and_eq_true, Bool.not_eq_true', bne_eq_false_iff_eq] at reference
  simp [redefinition, reference.1, reference.2, undefined, weak]

theorem redefinition_undefined (definition : occurrence.isDefinition = true)
    (undefined : symbol.defined = false) :
    redefinition symbol occurrence.file occurrence.symbol = .define := by
  have isDefinition : occurrence.symbol.shndx ≠ 0 := bne_iff_ne.mp definition
  rw [redefinition, if_pos isDefinition, if_neg (ne_true_of_eq_false undefined)]

theorem redefinition_weak (weak : occurrence.isWeakDefinition = true)
    (defined : symbol.defined = true) :
    redefinition symbol occurrence.file occurrence.symbol = .keep := by
  simp only [isWeakDefinition, isDefinition, Occurrence.isWeak,
    Bool.and_eq_true, bne_iff_ne] at weak
  have notCommon : occurrence.symbol.shndx ≠ shnCom :=
    fun isCom => occurrence.commonIsStrong isCom (beq_iff_eq.mp weak.2)
  cases isWeak : symbol.isWeak <;>
    simp [redefinition, weak.2, notCommon, defined, isWeak]

theorem redefinition_firm_weak (firm : occurrence.isFirm = true) (defined : symbol.defined = true)
    (notCommon : symbol.header.shndx ≠ shnCom) (weak : symbol.isWeak = true) :
    redefinition symbol occurrence.file occurrence.symbol = .define := by
  simp only [Occurrence.isFirm, isDefinition, Occurrence.isWeak, Bool.and_eq_true,
    bne_iff_ne, Bool.not_eq_true'] at firm
  simp only [redefinition, ne_eq, firm.1, not_false_eq_true, if_true, defined, notCommon,
    false_and, if_false, firm.2, weak, Bool.and_false, Bool.not_true, Bool.not_false,
    Bool.and_true, Bool.false_eq_true]

theorem redefinition_firm_strong (firm : occurrence.isFirm = true)
    (defined : symbol.defined = true) (strong : symbol.isWeak = false)
    (apart : ¬(symbol.header.shndx = shnCom ∧ occurrence.symbol.shndx = shnCom)) :
    redefinition symbol occurrence.file occurrence.symbol = .multiple := by
  simp only [Occurrence.isFirm, isDefinition, Occurrence.isWeak, Bool.and_eq_true,
    bne_iff_ne, Bool.not_eq_true'] at firm
  simp only [redefinition, ne_eq, firm.1, not_false_eq_true, if_true, defined, if_neg apart,
    firm.2, strong, Bool.and_false, Bool.not_false, Bool.and_true, Bool.false_eq_true, if_false]

theorem redefinition_common (common : occurrence.isCommon = true) (defined : symbol.defined = true)
    (isCommon : symbol.header.shndx = shnCom) :
    redefinition symbol occurrence.file occurrence.symbol =
      if symbol.size < occurrence.symbol.size then
        .change { symbol with size := occurrence.symbol.size }
      else .keep := by
  have isCom : occurrence.symbol.shndx = shnCom := beq_iff_eq.mp common
  have definition : occurrence.symbol.shndx ≠ 0 := by
    rw [isCom]
    decide
  rw [redefinition, if_pos definition, if_pos defined, if_pos ⟨isCommon, isCom⟩]

end Redefinition

section Described

/-- The entry of a name and whether it is reported, by the first definition that is not weak,
else the first weak one. -/
inductive Described (order : List Occurrence) (symbol : LinkerSymbol) (reported : Bool) : Prop where
  | strong (first : Occurrence) (isFirst : order.find? Occurrence.isFirm = some first)
      (isStrong : first.isCommon = false) (defined : symbol.DefinedBy first)
      (reports : reported = true ↔ 2 ≤ order.countP Occurrence.isFirm)
  | common (first : Occurrence) (isFirst : order.find? Occurrence.isFirm = some first)
      (isCommon : first.isCommon = true) (defined : symbol.defined = true)
      (header : symbol.header = first.symbol)
      (size : IsGreatest (commonsOf ELFSymbol.size order) symbol.size)
      (reports : reported = order.any Occurrence.isStrong)
  | weak (noFirm : order.find? Occurrence.isFirm = none) (first : Occurrence)
      (isFirst : order.find? isWeakDefinition = some first)
      (defined : symbol.DefinedBy first) (silent : reported = false)
  | undefined (noFirm : order.find? Occurrence.isFirm = none)
      (noWeak : order.find? isWeakDefinition = none)
      (undefined : symbol.defined = false)
      (weak : symbol.isWeak = false ↔ order.any isStrongReference = true)
      (silent : reported = false)

variable {name : Name} {order : List Occurrence} {symbol : LinkerSymbol} {reported : Bool}
  {occurrence : Occurrence}

theorem definedBy_define :
    (symbol.define occurrence.file occurrence.symbol).DefinedBy occurrence :=
  ⟨rfl, rfl, rfl, rfl, rfl, rfl⟩

theorem definedBy_meet_none (name : Name) (definition : occurrence.isDefinition = true) :
    (meet name occurrence none).1.DefinedBy occurrence :=
  ⟨definition, rfl, rfl, rfl, rfl, rfl⟩

/-! ### What is added to the occurrences -/

variable {first : Occurrence} {kind : Occurrence → Bool}

theorem find?_concat_of_some (isFirst : order.find? kind = some first) :
    (order ++ [occurrence]).find? kind = some first := by
  rw [List.find?_append, isFirst, Option.some_or]

theorem find?_concat_of_not (other : kind occurrence = false) :
    (order ++ [occurrence]).find? kind = order.find? kind := by
  rw [List.find?_append, List.find?_singleton, other]
  exact Option.or_none

theorem find?_concat_of_none (noFirst : order.find? kind = none) (isKind : kind occurrence = true) :
    (order ++ [occurrence]).find? kind = some occurrence := by
  rw [List.find?_append, noFirst, Option.none_or, List.find?_singleton, isKind]
  rfl

theorem any_concat (kind : Occurrence → Bool) :
    (order ++ [occurrence]).any kind = (order.any kind || kind occurrence) := by
  rw [List.any_append, List.any_cons, List.any_nil, Bool.or_false]

theorem countP_concat (kind : Occurrence → Bool) :
    (order ++ [occurrence]).countP kind =
      order.countP kind + if kind occurrence then 1 else 0 := by
  rw [List.countP_append, List.countP_singleton]

theorem commonsOf_concat_of_not (field : ELFSymbol → Nat)
    (notCommon : occurrence.isCommon = false) :
    commonsOf field (order ++ [occurrence]) = commonsOf field order := by
  ext value
  constructor
  · intro ⟨one, isIn, common, isValue⟩
    cases List.mem_append.mp isIn with
    | inl before => exact ⟨one, before, common, isValue⟩
    | inr last =>
      rw [List.mem_singleton.mp last, notCommon] at common
      exact absurd common Bool.false_ne_true
  · intro ⟨one, isIn, common, isValue⟩
    exact ⟨one, List.mem_append_left _ isIn, common, isValue⟩

theorem commonsOf_concat (field : ELFSymbol → Nat) (common : occurrence.isCommon = true) :
    commonsOf field (order ++ [occurrence]) =
      insert (field occurrence.symbol) (commonsOf field order) := by
  ext value
  constructor
  · intro ⟨one, isIn, isCommon, isValue⟩
    cases List.mem_append.mp isIn with
    | inl before => exact .inr ⟨one, before, isCommon, isValue⟩
    | inr last =>
      rw [List.mem_singleton.mp last] at isValue
      exact .inl isValue.symm
  · intro either
    cases either with
    | inl isValue =>
      exact ⟨occurrence, List.mem_append_right _ (List.mem_singleton_self _), common, isValue.symm⟩
    | inr before =>
      have ⟨one, isIn, isCommon, isValue⟩ := before
      exact ⟨one, List.mem_append_left _ isIn, isCommon, isValue⟩

theorem commonsOf_eq_empty (field : ELFSymbol → Nat)
    (noFirm : order.find? Occurrence.isFirm = none) : commonsOf field order = ∅ := by
  apply Set.eq_empty_of_forall_notMem
  intro value ⟨one, isIn, common, _⟩
  exact List.find?_eq_none.mp noFirm one isIn (isFirm_of_isCommon common)

theorem countP_firm_eq_zero (noFirm : order.find? Occurrence.isFirm = none) :
    order.countP Occurrence.isFirm = 0 :=
  List.countP_eq_zero.mpr (List.find?_eq_none.mp noFirm)

theorem any_strong_eq_false (noFirm : order.find? Occurrence.isFirm = none) :
    order.any Occurrence.isStrong = false := by
  apply List.any_eq_false.mpr
  intro one isIn strong
  exact List.find?_eq_none.mp noFirm one isIn (isFirm_of_isStrong strong)

/-- The first definition that is not weak defines the entry. -/
theorem Described.of_firm (noFirm : order.find? Occurrence.isFirm = none)
    (firm : occurrence.isFirm = true) (defined : symbol.DefinedBy occurrence) :
    Described (order ++ [occurrence]) symbol false := by
  have isFirst := find?_concat_of_none noFirm firm
  cases common : occurrence.isCommon with
  | false =>
    refine .strong occurrence isFirst common defined ?_
    rw [countP_concat, countP_firm_eq_zero noFirm, if_pos firm]
    decide
  | true =>
    refine .common occurrence isFirst common defined.defined defined.header ?_ ?_
    · rw [commonsOf_concat _ common, commonsOf_eq_empty _ noFirm, insert_empty_eq, defined.size]
      exact isGreatest_singleton
    · rw [any_concat, any_strong_eq_false noFirm, Occurrence.isStrong, common]
      exact (Bool.and_false _).symm

/-- Without one, the first weak definition does. -/
theorem Described.of_weakDefinition (noFirm : order.find? Occurrence.isFirm = none)
    (noWeak : order.find? isWeakDefinition = none) (weak : occurrence.isWeakDefinition = true)
    (defined : symbol.DefinedBy occurrence) : Described (order ++ [occurrence]) symbol false :=
  .weak ((find?_concat_of_not (isFirm_of_isWeakDefinition weak)).trans noFirm) occurrence
    (find?_concat_of_none noWeak weak) defined rfl

/-- A single occurrence. -/
theorem Described.single : Described [occurrence] (meet name occurrence none).1 false := by
  cases definition : occurrence.isDefinition with
  | true =>
    have defined := definedBy_meet_none name definition
    cases weak : occurrence.isWeak with
    | true =>
      have isWeakDefinition : occurrence.isWeakDefinition = true := by
        rw [Occurrence.isWeakDefinition, definition, weak]
        rfl
      have none : ([] : List Occurrence).find? Occurrence.isWeakDefinition = none := rfl
      exact Described.of_weakDefinition rfl none isWeakDefinition defined
    | false =>
      have isFirm : occurrence.isFirm = true := by
        rw [Occurrence.isFirm, definition, weak]
        rfl
      have none : ([] : List Occurrence).find? Occurrence.isFirm = none := rfl
      exact Described.of_firm none isFirm defined
  | false =>
    have notFirm := Occurrence.isFirm_of_not_isDefinition definition
    have notWeak := Occurrence.isWeakDefinition_of_not_isDefinition definition
    refine .undefined ?_ ?_ definition ?_ rfl
    · rw [List.find?_singleton, notFirm]
      rfl
    · rw [List.find?_singleton, notWeak]
      rfl
    · rw [List.any_cons, List.any_nil, Bool.or_false, Occurrence.isStrongReference, definition]
      exact (iff_of_eq (Bool.not_eq_true' _)).symm

theorem isWeak_of_definedBy (defined : symbol.DefinedBy occurrence) :
    symbol.isWeak = occurrence.isWeak := by
  rw [LinkerSymbol.isWeak, defined.header]
  rfl

theorem isWeak_of_isWeakDefinition (weak : occurrence.isWeakDefinition = true) :
    occurrence.isWeak = true :=
  (Bool.and_eq_true_iff.mp weak).2

theorem isWeak_of_isFirm (firm : occurrence.isFirm = true) : occurrence.isWeak = false :=
  (Bool.not_eq_true' _).mp (Bool.and_eq_true_iff.mp firm).2

/-- A weak definition or a reference leaves a definition alone. -/
theorem redefinition_other (other : occurrence.isFirm = false) (defined : symbol.defined = true) :
    redefinition symbol occurrence.file occurrence.symbol = .keep := by
  cases definition : occurrence.isDefinition with
  | false => exact redefinition_reference definition (.inl defined)
  | true =>
    apply redefinition_weak ?_ defined
    rw [Occurrence.isFirm, definition, Bool.true_and, Bool.not_eq_false'] at other
    rw [isWeakDefinition, definition, other]
    rfl

theorem meet_eq_keep (keeps : redefinition symbol occurrence.file occurrence.symbol = .keep) :
    meet name occurrence (some symbol) = (symbol, false) := by
  simp only [meet, keeps]

theorem meet_eq_define (defines : redefinition symbol occurrence.file occurrence.symbol = .define) :
    meet name occurrence (some symbol) = (symbol.define occurrence.file occurrence.symbol, false) := by
  simp only [meet, defines]

theorem meet_eq_multiple
    (multiple : redefinition symbol occurrence.file occurrence.symbol = .multiple) :
    meet name occurrence (some symbol) = (symbol, true) := by
  simp only [meet, multiple]

theorem meet_eq_change {changed : LinkerSymbol}
    (changes : redefinition symbol occurrence.file occurrence.symbol = .change changed) :
    meet name occurrence (some symbol) = (changed, false) := by
  simp only [meet, changes]

/-- An occurrence that is no definition to reckon with keeps what a definition made. -/
theorem Described.concat_other (described : Described order symbol reported)
    (other : occurrence.isFirm = false) (defined : symbol.defined = true) :
    Described (order ++ [occurrence]) symbol reported := by
  have sameFirm : (order ++ [occurrence]).find? Occurrence.isFirm =
      order.find? Occurrence.isFirm :=
    find?_concat_of_not other
  have notCommon := isCommon_of_not_isFirm other
  cases described with
  | strong first isFirst isStrong defines reports =>
    refine .strong first (find?_concat_of_some isFirst) isStrong defines ?_
    rw [countP_concat, other]
    exact reports
  | common first isFirst isCommon defines header size reports =>
    refine .common first (find?_concat_of_some isFirst) isCommon defines header ?_ ?_
    · rw [commonsOf_concat_of_not _ notCommon]
      exact size
    · rw [any_concat, isStrong_of_not_isFirm other, Bool.or_false]
      exact reports
  | weak noFirm first isFirst defines silent =>
    exact .weak (sameFirm.trans noFirm) first (find?_concat_of_some isFirst) defines silent
  | undefined _ _ undefined =>
    exact absurd (undefined.symm.trans defined) Bool.false_ne_true

/-- A second definition that is not weak is reported. -/
theorem Described.concat_multiple (described : Described order symbol reported)
    (firm : occurrence.isFirm = true) (defined : symbol.defined = true)
    (strong : symbol.isWeak = false)
    (apart : ¬(symbol.header.shndx = shnCom ∧ occurrence.symbol.shndx = shnCom)) :
    Described (order ++ [occurrence]) (meet name occurrence (some symbol)).1
      (reported || (meet name occurrence (some symbol)).2) := by
  rw [meet_eq_multiple (redefinition_firm_strong firm defined strong apart), Bool.or_true]
  cases described with
  | strong first isFirst isStrong defines reports =>
    refine .strong first (find?_concat_of_some isFirst) isStrong defines (iff_of_true rfl ?_)
    have some : 0 < order.countP Occurrence.isFirm :=
      List.countP_pos_iff.mpr ⟨first, List.mem_of_find?_eq_some isFirst, List.find?_some isFirst⟩
    rw [countP_concat, if_pos firm]
    exact Nat.succ_le_succ some
  | common first isFirst isCommon defines header size reports =>
    have notCommon : occurrence.isCommon = false := by
      apply beq_eq_false_iff_ne.mpr
      intro isCom
      apply apart ⟨?_, isCom⟩
      rw [header]
      exact beq_iff_eq.mp isCommon
    have isStrong : occurrence.isStrong = true := by
      rw [Occurrence.isStrong, firm, notCommon]
      rfl
    refine .common first (find?_concat_of_some isFirst) isCommon defines header ?_ ?_
    · rw [commonsOf_concat_of_not _ notCommon]
      exact size
    · rw [any_concat, isStrong, Bool.or_true]
  | weak noFirm first isFirst defines silent =>
    have isWeak := isWeak_of_isWeakDefinition (List.find?_some isFirst)
    exact absurd ((isWeak_of_definedBy defines).trans isWeak) (strong.symm ▸ Bool.false_ne_true)
  | undefined _ _ undefined =>
    exact absurd (undefined.symm.trans defined) Bool.false_ne_true

/-- A common symbol grows with the next one. -/
theorem Described.concat_common (isFirst : order.find? Occurrence.isFirm = some first)
    (isCommon : first.isCommon = true) (defined : symbol.defined = true)
    (header : symbol.header = first.symbol)
    (size : IsGreatest (commonsOf ELFSymbol.size order) symbol.size)
    (reports : reported = order.any Occurrence.isStrong) (common : occurrence.isCommon = true) :
    Described (order ++ [occurrence]) (meet name occurrence (some symbol)).1
      (reported || (meet name occurrence (some symbol)).2) := by
  have isCom : symbol.header.shndx = shnCom := by
    rw [header]
    exact beq_iff_eq.mp isCommon
  have greater := size.insert occurrence.symbol.size
  rw [← commonsOf_concat ELFSymbol.size common] at greater
  have stillReports : reported = (order ++ [occurrence]).any Occurrence.isStrong := by
    rw [any_concat, Occurrence.isStrong, common, reports, Bool.not_true, Bool.and_false,
      Bool.or_false]
  have redefines := redefinition_common common defined isCom
  by_cases larger : symbol.size < occurrence.symbol.size
  · rw [if_pos larger] at redefines
    rw [meet_eq_change redefines, Bool.or_false]
    rw [max_eq_left larger.le] at greater
    exact .common first (find?_concat_of_some isFirst) isCommon defined header greater stillReports
  · rw [if_neg larger] at redefines
    rw [meet_eq_keep redefines, Bool.or_false]
    rw [max_eq_right (not_lt.mp larger)] at greater
    exact .common first (find?_concat_of_some isFirst) isCommon defined header greater stillReports

/-- A name without a definition meets a reference. -/
theorem Described.concat_reference (noFirm : order.find? Occurrence.isFirm = none)
    (noWeak : order.find? Occurrence.isWeakDefinition = none) (undefined : symbol.defined = false)
    (weak : symbol.isWeak = false ↔ order.any Occurrence.isStrongReference = true)
    (reference : occurrence.isDefinition = false) :
    Described (order ++ [occurrence]) (meet name occurrence (some symbol)).1
      (meet name occurrence (some symbol)).2 := by
  have stillNoFirm := (find?_concat_of_not (Occurrence.isFirm_of_not_isDefinition reference)).trans
    noFirm
  have stillNoWeak :=
    (find?_concat_of_not (Occurrence.isWeakDefinition_of_not_isDefinition reference)).trans noWeak
  have isStrongReference : occurrence.isStrongReference = !occurrence.isWeak := by
    rw [Occurrence.isStrongReference, reference]
    rfl
  cases isWeak : occurrence.isWeak with
  | true =>
    rw [isWeak] at isStrongReference
    rw [meet_eq_keep (redefinition_reference reference (.inr (.inr isWeak)))]
    refine .undefined stillNoFirm stillNoWeak undefined ?_ rfl
    rw [any_concat, isStrongReference, Bool.not_true, Bool.or_false]
    exact weak
  | false =>
    rw [isWeak] at isStrongReference
    have anyStrong : (order ++ [occurrence]).any Occurrence.isStrongReference = true := by
      rw [any_concat, isStrongReference]
      exact Bool.or_true _
    cases wasWeak : symbol.isWeak with
    | true =>
      rw [meet_eq_change (redefinition_strongReference isStrongReference undefined wasWeak)]
      exact .undefined stillNoFirm stillNoWeak undefined (iff_of_true isWeak anyStrong) rfl
    | false =>
      rw [meet_eq_keep (redefinition_reference reference (.inr (.inl wasWeak)))]
      exact .undefined stillNoFirm stillNoWeak undefined (iff_of_true wasWeak anyStrong) rfl

/-- One more occurrence. -/
theorem Described.concat (described : Described order symbol reported) :
    Described (order ++ [occurrence]) (meet name occurrence (some symbol)).1
      (reported || (meet name occurrence (some symbol)).2) := by
  have kept (defined : symbol.defined = true) (other : occurrence.isFirm = false) :
      Described (order ++ [occurrence]) (meet name occurrence (some symbol)).1
        (reported || (meet name occurrence (some symbol)).2) := by
    rw [meet_eq_keep (redefinition_other other defined), Bool.or_false]
    exact described.concat_other other defined
  cases firm : occurrence.isFirm with
  | false =>
    cases described with
    | strong first isFirst isStrong defines reports => exact kept defines.defined firm
    | common first isFirst isCommon defined header size reports => exact kept defined firm
    | weak noFirm first isFirst defines silent => exact kept defines.defined firm
    | undefined noFirm noWeak undefined weak silent =>
      rw [silent, Bool.false_or]
      cases definition : occurrence.isDefinition with
      | false => exact .concat_reference noFirm noWeak undefined weak definition
      | true =>
        rw [meet_eq_define (redefinition_undefined definition undefined)]
        rw [Occurrence.isFirm, definition, Bool.true_and, Bool.not_eq_false'] at firm
        exact .of_weakDefinition noFirm noWeak
          (by rw [isWeakDefinition, definition, firm]; rfl) definedBy_define
  | true =>
    have definition := (Bool.and_eq_true_iff.mp firm).1
    cases described with
    | strong first isFirst isStrong defines reports =>
      have strong := (isWeak_of_definedBy defines).trans
        (isWeak_of_isFirm (List.find?_some isFirst))
      apply Described.concat_multiple
        (.strong first isFirst isStrong defines reports) firm defines.defined strong
      intro both
      rw [defines.header] at both
      exact beq_eq_false_iff_ne.mp isStrong both.1
    | common first isFirst isCommon defined header size reports =>
      cases common : occurrence.isCommon with
      | true => exact .concat_common isFirst isCommon defined header size reports common
      | false =>
        have strong : symbol.isWeak = false := by
          rw [LinkerSymbol.isWeak, header]
          exact isWeak_of_isFirm (List.find?_some isFirst)
        apply Described.concat_multiple
          (.common first isFirst isCommon defined header size reports) firm defined strong
        intro both
        exact beq_eq_false_iff_ne.mp common both.2
    | weak noFirm first isFirst defines silent =>
      have isWeak := isWeak_of_isWeakDefinition (List.find?_some isFirst)
      have notCommon : symbol.header.shndx ≠ shnCom := by
        rw [defines.header]
        intro isCom
        exact first.commonIsStrong isCom (beq_iff_eq.mp isWeak)
      rw [silent, meet_eq_define (redefinition_firm_weak firm defines.defined notCommon
        ((isWeak_of_definedBy defines).trans isWeak))]
      exact .of_firm noFirm firm definedBy_define
    | undefined noFirm noWeak undefined weak silent =>
      rw [silent, meet_eq_define (redefinition_undefined definition undefined)]
      exact .of_firm noFirm firm definedBy_define

/-- A run over the occurrences of a name that has none before. -/
theorem described_meetAll (name : Name) (nonempty : order ≠ []) :
    ∃ symbol reported, meetAll name order (none, false) = (some symbol, reported) ∧
      Described order symbol reported := by
  induction order using List.reverseRecOn with
  | nil => exact absurd rfl nonempty
  | append_singleton before last ih =>
    rw [meetAll, List.foldl_append]
    cases before with
    | nil => exact ⟨_, _, rfl, .single⟩
    | cons head rest =>
      have ⟨symbol, reported, met, described⟩ := ih (List.cons_ne_nil head rest)
      rw [meetAll] at met
      rw [met]
      exact ⟨_, _, rfl, described.concat⟩

end Described

end DaveCC.Linking
