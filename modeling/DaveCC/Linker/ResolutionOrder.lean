import DaveCC.Linker.SymbolResolution

/-!
# Symbol resolution in any order

When the rules hold of every order in which the occurrences of a name are met.
-/

namespace DaveCC.Linking

open DaveCC.Container Occurrence LinkerSymbol

/-- No common symbol stands beside a strong definition, and all common symbols are aligned
alike. -/
structure Uniform (occurrences : List Occurrence) : Prop where
  apart : ∀ common ∈ occurrences, common.isCommon = true →
    ∀ strong ∈ occurrences, strong.isStrong = false
  aligned : ∀ one ∈ occurrences, one.isCommon = true →
    ∀ other ∈ occurrences, other.isCommon = true → one.symbol.value = other.symbol.value

theorem Uniform.perm {occurrences order : List Occurrence} (uniform : Uniform occurrences)
    (reordered : order.Perm occurrences) : Uniform order where
  apart common isIn isCommon strong isIn' :=
    uniform.apart common (reordered.mem_iff.mp isIn) isCommon strong (reordered.mem_iff.mp isIn')
  aligned one isIn isCommon other isIn' :=
    uniform.aligned one (reordered.mem_iff.mp isIn) isCommon other (reordered.mem_iff.mp isIn')

section Order

variable {order : List Occurrence} {symbol : LinkerSymbol} {reported : Bool}
  {occurrence : Occurrence}

theorem any_of_mem {kind : Occurrence → Bool} (isIn : occurrence ∈ order)
    (isKind : kind occurrence = true) : order.any kind = true :=
  List.any_eq_true.mpr ⟨occurrence, isIn, isKind⟩

theorem countP_strong_eq_zero (noStrong : order.any Occurrence.isStrong = false) :
    order.countP Occurrence.isStrong = 0 :=
  List.countP_eq_zero.mpr (List.any_eq_false.mp noStrong)

theorem any_common_eq_false (noFirm : order.find? Occurrence.isFirm = none) :
    order.any Occurrence.isCommon = false := by
  apply List.any_eq_false.mpr
  intro one isIn common
  exact List.find?_eq_none.mp noFirm one isIn (isFirm_of_isCommon common)

theorem isStrong_of_isFirm (firm : occurrence.isFirm = true)
    (notCommon : occurrence.isCommon = false) : occurrence.isStrong = true := by
  rw [Occurrence.isStrong, firm, notCommon]
  rfl

/-- The rules hold of uniform occurrences. -/
theorem Described.resolves (described : Described order symbol reported) (nonempty : order ≠ [])
    (uniform : Uniform order) : Resolves order (some symbol) reported := by
  have isMentioned : (some symbol).isSome = !order.isEmpty := by
    rw [List.isEmpty_eq_false_iff.mpr nonempty]
    rfl
  have resolves (survives : Survives order symbol)
      (reports : reported = true ↔ 2 ≤ order.countP Occurrence.isStrong) :
      Resolves order (some symbol) reported :=
    ⟨isMentioned, fun _ isSymbol => Option.some.inj isSymbol ▸ survives, reports⟩
  have silence (silent : reported = false) (noStrong : order.any Occurrence.isStrong = false) :
      reported = true ↔ 2 ≤ order.countP Occurrence.isStrong := by
    rw [silent, countP_strong_eq_zero noStrong]
    decide
  cases described with
  | strong first isFirst isStrong defined reports =>
    have isIn := List.mem_of_find?_eq_some isFirst
    have strong := isStrong_of_isFirm (List.find?_some isFirst) isStrong
    have sameCount : order.countP Occurrence.isFirm = order.countP Occurrence.isStrong := by
      apply List.countP_congr
      intro one oneIsIn
      constructor
      · intro firm
        apply isStrong_of_isFirm firm
        apply Bool.eq_false_of_not_eq_true
        intro common
        exact Bool.false_ne_true ((uniform.apart one oneIsIn common first isIn).symm.trans strong)
      · exact isFirm_of_isStrong
    apply resolves
    · rw [Survives, if_pos (any_of_mem isIn strong)]
      exact ⟨first, isIn, strong, defined⟩
    · rw [← sameCount]
      exact reports
  | common first isFirst isCommon defined header size reports =>
    have isIn := List.mem_of_find?_eq_some isFirst
    have noStrong : order.any Occurrence.isStrong = false :=
      List.any_eq_false.mpr fun one oneIsIn =>
        ne_true_of_eq_false (uniform.apart first isIn isCommon one oneIsIn)
    apply resolves _ (silence (reports.trans noStrong) noStrong)
    rw [Survives, if_neg (ne_true_of_eq_false noStrong), if_pos (any_of_mem isIn isCommon), header]
    refine ⟨defined, beq_iff_eq.mp isCommon, size, ⟨first, isIn, isCommon, rfl⟩, ?_⟩
    intro value ⟨one, oneIsIn, oneIsCommon, isValue⟩
    rw [← isValue]
    exact (uniform.aligned one oneIsIn oneIsCommon first isIn isCommon).le
  | weak noFirm first isFirst defined silent =>
    have noStrong := any_strong_eq_false noFirm
    apply resolves _ (silence silent noStrong)
    rw [Survives, if_neg (ne_true_of_eq_false noStrong),
      if_neg (ne_true_of_eq_false (any_common_eq_false noFirm)), isFirst]
    exact defined
  | undefined noFirm noWeak undefined weak silent =>
    have noStrong := any_strong_eq_false noFirm
    apply resolves _ (silence silent noStrong)
    rw [Survives, if_neg (ne_true_of_eq_false noStrong),
      if_neg (ne_true_of_eq_false (any_common_eq_false noFirm)), noWeak]
    exact ⟨undefined, weak⟩

/-- A common symbol that comes first keeps its header. -/
theorem Described.header_of_common (described : Described (occurrence :: order) symbol reported)
    (common : occurrence.isCommon = true) : symbol.header = occurrence.symbol := by
  have isFirst : (occurrence :: order).find? Occurrence.isFirm = some occurrence := by
    rw [List.find?_cons_of_pos (isFirm_of_isCommon common)]
  cases described with
  | strong first isFirst' isStrong =>
    rw [isFirst] at isFirst'
    cases isFirst'
    exact absurd (isStrong.symm.trans common) Bool.false_ne_true
  | common first isFirst' isCommon defined header =>
    rw [isFirst] at isFirst'
    cases isFirst'
    exact header
  | weak noFirm | undefined noFirm =>
    rw [isFirst] at noFirm
    exact absurd noFirm (Option.some_ne_none _)

/-- The rules hold of no order that a common symbol heads with a strong definition to come. -/
theorem Resolves.no_strong (resolves : Resolves order (some symbol) reported)
    (header : symbol.header = occurrence.symbol) (common : occurrence.isCommon = true) :
    order.any Occurrence.isStrong = false := by
  apply Bool.eq_false_of_not_eq_true
  intro anyStrong
  have survives := resolves.survives symbol rfl
  rw [Survives, if_pos anyStrong] at survives
  have ⟨strong, isIn, isStrong, defined⟩ := survives
  have isCom : strong.isCommon = true := by
    rw [Occurrence.isCommon, ← defined.header, header]
    exact common
  exact Bool.false_ne_true ((isCommon_of_isStrong isStrong).symm.trans isCom)

/-- The first common symbol is aligned as the rules want. -/
theorem Resolves.aligned_le (resolves : Resolves order (some symbol) reported)
    (header : symbol.header = occurrence.symbol) (common : occurrence.isCommon = true)
    {other : Occurrence} (isIn : other ∈ order) (isCommon : other.isCommon = true) :
    other.symbol.value ≤ occurrence.symbol.value := by
  have survives := resolves.survives symbol rfl
  rw [Survives, if_neg (ne_true_of_eq_false (resolves.no_strong header common)),
    if_pos (any_of_mem isIn isCommon), header] at survives
  exact survives.2.2.2.2 ⟨other, isIn, isCommon, rfl⟩

end Order

section Outcome

variable {linker : Linker} {name : Name} {order : List Occurrence} {symbol : LinkerSymbol}

/-- The outcome for a name that is mentioned and not reported. -/
def LinkerSymbol.resolution (symbol : LinkerSymbol) : Resolution :=
  if !symbol.defined then .undefined symbol.isWeak
  else if symbol.header.shndx = shnCom then .common symbol.size symbol.header.value
  else if symbol.isWeak then .weak
  else .strong symbol.file symbol.header

theorem resolution_of_knows {reported : Bool} {entry : Option LinkerSymbol}
    (known : linker.knows name = (entry, reported)) :
    linker.resolution name =
      if reported then .duplicate else (entry.map resolution).getD .unmentioned := by
  cases known
  rw [Linker.resolution]
  split
  · rfl
  cases linker.globalSymbolTable.find name with
  | none => rfl
  | some symbol => rfl

theorem resolution_of_strong {occurrence : Occurrence} (strong : occurrence.isStrong = true)
    (defined : symbol.DefinedBy occurrence) :
    symbol.resolution = .strong (some occurrence.file) occurrence.symbol := by
  have notCommon : symbol.header.shndx ≠ shnCom := by
    rw [defined.header]
    exact beq_eq_false_iff_ne.mp (isCommon_of_isStrong strong)
  have notWeak := (isWeak_of_definedBy defined).trans (isWeak_of_isFirm (isFirm_of_isStrong strong))
  rw [resolution, defined.defined, if_neg notCommon, notWeak, defined.file, defined.header]
  rfl

theorem resolution_of_weak {occurrence : Occurrence} (weak : occurrence.isWeakDefinition = true)
    (defined : symbol.DefinedBy occurrence) : symbol.resolution = .weak := by
  have isWeak := isWeak_of_isWeakDefinition weak
  have notCommon : symbol.header.shndx ≠ shnCom := by
    rw [defined.header]
    intro isCom
    exact occurrence.commonIsStrong isCom (beq_iff_eq.mp isWeak)
  rw [resolution, defined.defined, if_neg notCommon, (isWeak_of_definedBy defined).trans isWeak]
  rfl

theorem resolution_of_undefined (undefined : symbol.defined = false) :
    symbol.resolution = .undefined symbol.isWeak := by
  rw [resolution, undefined]
  rfl

theorem resolution_of_common (defined : symbol.defined = true)
    (common : symbol.header.shndx = shnCom) :
    symbol.resolution = .common symbol.size symbol.header.value := by
  rw [resolution, defined, if_pos common]
  rfl

/-- What occurs once is all that occurs. -/
theorem eq_of_countP_le_one {kind : Occurrence → Bool} {one other : Occurrence}
    (once : order.countP kind ≤ 1) (oneIsIn : one ∈ order) (oneIsKind : kind one = true)
    (otherIsIn : other ∈ order) (otherIsKind : kind other = true) : one = other := by
  rw [List.countP_eq_length_filter] at once
  have oneFiltered := List.mem_filter.mpr ⟨oneIsIn, oneIsKind⟩
  have otherFiltered := List.mem_filter.mpr ⟨otherIsIn, otherIsKind⟩
  cases filtered : order.filter kind with
  | nil =>
    rw [filtered] at oneFiltered
    exact absurd oneFiltered List.not_mem_nil
  | cons head rest =>
    rw [filtered] at once oneFiltered otherFiltered
    have single : rest = [] :=
      List.eq_nil_of_length_eq_zero (Nat.le_zero.mp (Nat.le_of_succ_le_succ once))
    rw [single] at oneFiltered otherFiltered
    exact (List.mem_singleton.mp oneFiltered).trans (List.mem_singleton.mp otherFiltered).symm

variable {other : List Occurrence}

theorem commonsOf_perm (field : ELFSymbol → Nat) (reordered : order.Perm other) :
    commonsOf field order = commonsOf field other := by
  ext value
  constructor
  · intro ⟨one, isIn, common, isValue⟩
    exact ⟨one, reordered.mem_iff.mp isIn, common, isValue⟩
  · intro ⟨one, isIn, common, isValue⟩
    exact ⟨one, reordered.mem_iff.mpr isIn, common, isValue⟩

theorem any_perm (kind : Occurrence → Bool) (reordered : order.Perm other) :
    order.any kind = other.any kind := by
  rw [Bool.eq_iff_iff, List.any_eq_true, List.any_eq_true]
  constructor
  · intro ⟨one, isIn, isKind⟩
    exact ⟨one, reordered.mem_iff.mp isIn, isKind⟩
  · intro ⟨one, isIn, isKind⟩
    exact ⟨one, reordered.mem_iff.mpr isIn, isKind⟩

/-- What survives in two orders with at most one strong definition comes to the same. -/
theorem Survives.resolution_eq {symbol' : LinkerSymbol} (survives : Survives order symbol)
    (survives' : Survives other symbol') (reordered : order.Perm other)
    (once : order.countP Occurrence.isStrong ≤ 1) : symbol.resolution = symbol'.resolution := by
  rw [Survives] at survives survives'
  rw [← any_perm _ reordered, ← any_perm _ reordered, ← any_perm _ reordered,
    ← commonsOf_perm _ reordered, ← commonsOf_perm _ reordered] at survives'
  cases strong : order.any Occurrence.isStrong with
  | true =>
    rw [if_pos strong] at survives survives'
    have ⟨one, isIn, isStrong, defined⟩ := survives
    have ⟨one', isIn', isStrong', defined'⟩ := survives'
    have same : one = one' :=
      eq_of_countP_le_one once isIn isStrong (reordered.mem_iff.mpr isIn') isStrong'
    rw [resolution_of_strong isStrong defined, resolution_of_strong isStrong' defined', same]
  | false =>
  rw [if_neg (ne_true_of_eq_false strong)] at survives survives'
  cases common : order.any Occurrence.isCommon with
  | true =>
    rw [if_pos common] at survives survives'
    have ⟨defined, isCommon, size, alignment⟩ := survives
    have ⟨defined', isCommon', size', alignment'⟩ := survives'
    rw [resolution_of_common defined isCommon, resolution_of_common defined' isCommon',
      size.unique size', alignment.unique alignment']
  | false =>
  rw [if_neg (ne_true_of_eq_false common)] at survives survives'
  cases weak : order.find? isWeakDefinition with
  | some one =>
    cases weak' : other.find? isWeakDefinition with
    | some one' =>
      rw [weak] at survives
      rw [weak'] at survives'
      rw [resolution_of_weak (List.find?_some weak) survives,
        resolution_of_weak (List.find?_some weak') survives']
    | none =>
      have isIn := reordered.mem_iff.mp (List.mem_of_find?_eq_some weak)
      exact absurd (List.find?_some weak) (List.find?_eq_none.mp weak' one isIn)
  | none =>
    cases weak' : other.find? isWeakDefinition with
    | some one' =>
      have isIn := reordered.mem_iff.mpr (List.mem_of_find?_eq_some weak')
      exact absurd (List.find?_some weak') (List.find?_eq_none.mp weak one' isIn)
    | none =>
      rw [weak] at survives
      rw [weak'] at survives'
      have same : symbol.isWeak = symbol'.isWeak := by
        rw [Bool.eq_iff_iff, ← not_iff_not, Bool.not_eq_true, Bool.not_eq_true]
        exact survives.2.trans survives'.2.symm
      rw [resolution_of_undefined survives.1, resolution_of_undefined survives'.1, same]

end Outcome

/-! ## Every order -/

section Run

variable {name : Name} {reads : List SymbolRead}

theorem knows_start (files : List ObjectFile) : (Linker.start files).knows name = (none, false) :=
  Prod.ext HashTable.search_init rfl

/-- Two orders for which the rules hold have one outcome. -/
theorem resolution_eq {linker linker' : Linker} {order order' : List Occurrence}
    {known known' : Option LinkerSymbol × Bool} (knows : linker.knows name = known)
    (knows' : linker'.knows name = known') (resolves : Resolves order known.1 known.2)
    (resolves' : Resolves order' known'.1 known'.2) (reordered : order.Perm order') :
    linker.resolution name = linker'.resolution name := by
  have sameReport : known.2 = known'.2 := by
    rw [Bool.eq_iff_iff, resolves.reports, resolves'.reports, reordered.countP_eq]
  have sameMention : known.1.isSome = known'.1.isSome := by
    rw [resolves.mentioned, resolves'.mentioned, reordered.isEmpty_eq]
  rw [resolution_of_knows knows, resolution_of_knows knows', ← sameReport]
  cases reported : known.2 with
  | true => rfl
  | false =>
    have once : order.countP Occurrence.isStrong ≤ 1 := by
      apply Nat.le_of_lt_succ
      apply Nat.lt_of_not_le
      intro twice
      exact Bool.false_ne_true (reported.symm.trans (resolves.reports.mpr twice))
    cases entry : known.1 with
    | none =>
      rw [entry] at sameMention
      rw [Option.isNone_iff_eq_none.mp (Option.isSome_eq_false_iff.mp sameMention.symm)]
    | some symbol =>
      rw [entry] at sameMention
      have ⟨symbol', entry'⟩ := Option.isSome_iff_exists.mp sameMention.symm
      have same := (resolves.survives symbol entry).resolution_eq
        (resolves'.survives symbol' entry') reordered once
      rw [entry', Option.map_some, Option.map_some, same]

/-- The rules hold of a run whose occurrences are uniform. -/
theorem resolves_of_uniform (name : Name) {order : List Occurrence} (uniform : Uniform order) :
    Resolves order (meetAll name order (none, false)).1 (meetAll name order (none, false)).2 := by
  cases order with
  | nil =>
    constructor
    · rfl
    · intro symbol isSymbol
      cases isSymbol
    · exact iff_of_false Bool.false_ne_true (Nat.not_succ_le_zero 1)
  | cons head rest =>
    have ⟨symbol, reported, met, described⟩ :=
      described_meetAll name (List.cons_ne_nil head rest)
    rw [met]
    exact described.resolves (List.cons_ne_nil head rest) uniform

/-- A read of an occurrence can come first. -/
theorem exists_order_cons {occurrence : Occurrence} (isIn : occurrence ∈ occurrencesOf name reads) :
    ∃ order, order.Perm reads ∧ ∃ rest, occurrencesOf name order = occurrence :: rest := by
  have ⟨read, isRead, occurs⟩ := List.mem_filterMap.mp isIn
  have ⟨before, after, parts⟩ := List.append_of_mem isRead
  refine ⟨read :: (before ++ after), ?_, occurrencesOf name (before ++ after), ?_⟩
  · rw [parts]
    exact List.perm_middle.symm
  · rw [occurrencesOf, List.filterMap_cons, occurs]
    rfl

/-- If the rules hold of every order, the occurrences are uniform. -/
theorem uniform_of_resolves
    (resolves : ∀ order, order.Perm reads → Resolves (occurrencesOf name order) (meetAll name
      (occurrencesOf name order) (none, false)).1 (meetAll name (occurrencesOf name order) (none,
      false)).2) : Uniform (occurrencesOf name reads) := by
  -- The common symbol that breaks the rules is read first.
  have first {occurrence : Occurrence} (isIn : occurrence ∈ occurrencesOf name reads)
      (common : occurrence.isCommon = true) :
      ∃ order symbol reported, order.Perm (occurrencesOf name reads) ∧
        symbol.header = occurrence.symbol ∧ Resolves order (some symbol) reported := by
    have ⟨order, reordered, rest, occurs⟩ := exists_order_cons isIn
    have ⟨symbol, reported, met, described⟩ :=
      described_meetAll name (List.cons_ne_nil occurrence rest)
    have resolved := resolves order reordered
    rw [occurs, met] at resolved
    refine ⟨occurrence :: rest, symbol, reported, ?_, described.header_of_common common, resolved⟩
    rw [← occurs]
    exact reordered.filterMap _
  have aligned {one other : Occurrence} (oneIsIn : one ∈ occurrencesOf name reads)
      (oneIsCommon : one.isCommon = true) (otherIsIn : other ∈ occurrencesOf name reads)
      (otherIsCommon : other.isCommon = true) : other.symbol.value ≤ one.symbol.value := by
    have ⟨order, symbol, reported, reordered, header, resolved⟩ := first oneIsIn oneIsCommon
    exact resolved.aligned_le header oneIsCommon (reordered.mem_iff.mpr otherIsIn) otherIsCommon
  constructor
  · intro common isIn isCommon strong strongIsIn
    have ⟨order, symbol, reported, reordered, header, resolved⟩ := first isIn isCommon
    exact Bool.eq_false_of_not_eq_true
      (List.any_eq_false.mp (resolved.no_strong header isCommon) strong
        (reordered.mem_iff.mpr strongIsIn))
  · intro one oneIsIn oneIsCommon other otherIsIn otherIsCommon
    exact Nat.le_antisymm (aligned otherIsIn otherIsCommon oneIsIn oneIsCommon)
      (aligned oneIsIn oneIsCommon otherIsIn otherIsCommon)

theorem knows_run (files : List ObjectFile) (order : List SymbolRead) :
    ((Linker.start files).readAll order).knows name =
      meetAll name (occurrencesOf name order) (none, false) := by
  rw [knows_readAll (List.cons_ne_nil _ _), knows_start]

theorem reports_run (files : List ObjectFile) (order : List SymbolRead) :
    ((Linker.start files).readAll order).reports name =
      (meetAll name (occurrencesOf name order) (none, false)).2 :=
  congrArg Prod.snd (knows_run files order)

/-- The rules of symbol resolution hold of every order in which symbols are read, and every
order has one outcome, exactly when the occurrences of the name are uniform. -/
theorem resolves_every_order_iff (files : List ObjectFile) (name : Name) (reads : List SymbolRead) :
    (∀ order, order.Perm reads →
      Resolves (occurrencesOf name order)
          (((Linker.start files).readAll order).globalSymbolTable.find name)
          (((Linker.start files).readAll order).reports name) ∧
        ((Linker.start files).readAll order).resolution name =
          ((Linker.start files).readAll reads).resolution name) ↔
      Uniform (occurrencesOf name reads) := by
  constructor
  · intro rules
    apply uniform_of_resolves
    intro order reordered
    rw [← knows_run files]
    exact (rules order reordered).1
  · intro uniform order reordered
    have same : (occurrencesOf name order).Perm (occurrencesOf name reads) :=
      reordered.filterMap _
    have resolves := resolves_of_uniform name (uniform.perm same)
    constructor
    · rw [← knows_run files] at resolves
      exact resolves
    · exact resolution_eq (knows_run files order) (knows_run files reads) resolves
        (resolves_of_uniform name uniform) same

def tentativeRead : SymbolRead where
  file := 0
  strtab := ⟨2, [0x78, 0]⟩
  symbol := { name := 0, info := 0x11, shndx := shnCom, value := 4, size := 4 }
  commonIsStrong _ := by decide

def definitionRead : SymbolRead where
  file := 1
  strtab := ⟨2, [0x78, 0]⟩
  symbol := { name := 0, info := 0x11, shndx := 1, value := 0, size := 4 }
  commonIsStrong := by decide

/-- A duplicate is reported where there is one strong definition. -/
theorem not_resolves_every_order :
    ¬∀ (files : List ObjectFile) (name : Name) (reads order : List SymbolRead), order.Perm reads →
      Resolves (occurrencesOf name order)
          (((Linker.start files).readAll order).globalSymbolTable.find name)
          (((Linker.start files).readAll order).reports name) ∧
        ((Linker.start files).readAll order).resolution name =
          ((Linker.start files).readAll reads).resolution name := by
  intro rules
  have resolves := (rules [] [0x78] [tentativeRead, definitionRead] [tentativeRead, definitionRead]
    (List.Perm.refl _)).1
  have reports := resolves.reports
  rw [reports_run] at reports
  exact absurd (reports.mp (by decide)) (by decide)

end Run

end DaveCC.Linking
