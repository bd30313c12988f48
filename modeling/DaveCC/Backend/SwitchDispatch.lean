import DaveCC.Backend.SwitchCodegen

/-!
# Dispatch of the generated code

For sorted cases the search and the table lead to the case of the value, if there
is one. Without one they lead to the default label only through the tests that are
left out when all cases are covered.
-/

namespace DaveCC.Backend

open DaveCC.Arith DaveCC.Frontend IntFormat

variable {format : IntFormat} {value : BitVec 64}

private theorem ofTruth_eq_one_iff (condition : Bool) :
    IROpcode.ofTruth condition = some 1 ↔ condition = true := by
  cases condition <;> decide

theorem cmplti_eq_one_iff (constant : BitVec 64) :
    IROpcode.cmplti.integerValue format format value constant = some 1 ↔
      format.number value < format.number constant := by
  rw [IROpcode.integerValue, ofTruth_eq_one_iff, lt_eq_number, decide_eq_true_eq]

theorem cmpgti_eq_one_iff (constant : BitVec 64) :
    IROpcode.cmpgti.integerValue format format value constant = some 1 ↔
      format.number constant < format.number value := by
  rw [IROpcode.integerValue, ofTruth_eq_one_iff, lt_eq_number, decide_eq_true_eq]

theorem cmpeqi_eq_one_iff (constant : BitVec 64) :
    IROpcode.cmpeqi.integerValue format format value constant = some 1 ↔
      format.number constant = format.number value := by
  rw [IROpcode.integerValue, ofTruth_eq_one_iff, number_eq_iff, beq_iff_eq, eq_comm]

attribute [local simp] executeDispatch

variable {label : SwitchLabel}

/-- A branch passes over code that does not emit its label. -/
theorem executeDispatch_seeking (code rest : List SwitchInstruction)
    (absent : .label label ∉ code) :
    executeDispatch format value (code ++ rest) (.seeking label) =
      executeDispatch format value rest (.seeking label) := by
  induction code with
  | nil => rfl
  | cons instruction code ih =>
    simp only [List.mem_cons, not_or] at absent
    rw [List.cons_append, executeDispatch, if_neg (Ne.symm absent.1)]
    exact ih absent.2

theorem executeDispatch_seeking_end (code : List SwitchInstruction) (absent : .label label ∉ code) :
    executeDispatch format value code (.seeking label) = .reaches label := by
  rw [← List.append_nil code, executeDispatch_seeking code [] absent]
  rfl

/-- The case with the number of a value. -/
def findCase (format : IntFormat) (value : BitVec 64) (cases : List CaseLabel) :
    Option CaseLabel :=
  cases.find? fun label => format.number label.value = format.number value

/-- The order that the search and the table rely on. -/
def Ascending (format : IntFormat) (cases : List CaseLabel) : Prop :=
  cases.Pairwise fun first second => format.number first.value < format.number second.value

/-- The comparisons of a short search. -/
def linearTests (cases : List CaseLabel) : List SwitchInstruction :=
  cases.map fun label => .compareBranch .cmpeqi label.value (.caseLabel label.node)

/-- The branch after a short search. -/
def afterTests (node : SwitchNode) : List SwitchInstruction :=
  if node.allCasesCovered then [] else [.bra (switchDefaultLabel node)]

theorem label_not_mem_tests (node : SwitchNode) (label : SwitchLabel)
    (cases : List CaseLabel) : .label label ∉ linearTests cases ++ afterTests node := by
  simp only [linearTests, afterTests, List.mem_append, List.mem_map, reduceCtorEq, and_false,
    exists_false, false_or]
  split_ifs <;> simp

/-- A search emits only labels of its own. -/
theorem label_not_mem_search (node : SwitchNode) (start : Nat) (cases : List CaseLabel)
    (outside : ∀ lower finish, label = .lowerHalf lower finish → lower < start) :
    .label label ∉ generateBinaryCaseSearch node start cases := by
  fun_induction generateBinaryCaseSearch node start cases with
  | case1 start cases long middle middleCase lowerHalf upperIh lowerIh =>
    have upperAbsent := upperIh fun lower finish equal =>
      Nat.lt_add_right middle (outside lower finish equal)
    have different : label ≠ lowerHalf := by
      intro equal
      exact absurd (outside _ _ equal) (lt_irrefl _)
    simp [upperAbsent, lowerIh outside, different]
  | case2 start cases short => exact label_not_mem_tests node label cases

/-- What follows the search for a value. -/
def afterSearch (node : SwitchNode) (found : Option CaseLabel) : DispatchState :=
  match found with
  | some label => .seeking (.caseLabel label.node)
  | none => if node.allCasesCovered then .running else .seeking (switchDefaultLabel node)

/-- The comparisons of a short search, one after another. -/
theorem executeDispatch_tests (node : SwitchNode) (cases : List CaseLabel)
    (rest : List SwitchInstruction) :
    executeDispatch format value (linearTests cases ++ afterTests node ++ rest) .running =
      executeDispatch format value rest (afterSearch node (findCase format value cases)) := by
  induction cases with
  | nil =>
    simp only [linearTests, afterTests, findCase, afterSearch, List.map_nil, List.nil_append,
      List.find?_nil]
    split_ifs <;> rfl
  | cons label cases ih =>
    have tests : linearTests (label :: cases) =
        .compareBranch .cmpeqi label.value (.caseLabel label.node) :: linearTests cases := rfl
    rw [tests, List.cons_append, List.cons_append, executeDispatch]
    by_cases equal : format.number label.value = format.number value
    · rw [if_pos ((cmpeqi_eq_one_iff _).mpr equal), executeDispatch_seeking _ _ (label_not_mem_tests node _ cases),
        findCase, List.find?_cons_of_pos (by simpa using equal), afterSearch]
    · rw [if_neg (mt (cmpeqi_eq_one_iff _).mp equal), ih, findCase, findCase,
        List.find?_cons_of_neg (by simpa using equal)]

variable {cases : List CaseLabel} {middle : Nat}

/-- In ascending cases a value below the middle is not found from the middle on. -/
theorem findCase_take (ascending : Ascending format cases) (inBounds : middle < cases.length)
    (below : format.number value < format.number (cases.get ⟨middle, inBounds⟩).value) :
    findCase format value cases = findCase format value (cases.take middle) := by
  have upper : findCase format value (cases.drop middle) = none := by
    rw [findCase, List.find?_eq_none]
    intro label labelMem
    rw [List.drop_eq_getElem_cons inBounds] at labelMem
    have dropAscending := ascending.drop (i := middle)
    rw [List.drop_eq_getElem_cons inBounds, List.pairwise_cons] at dropAscending
    rcases List.mem_cons.mp labelMem with rfl | later
    · simpa using below.ne'
    · simpa using (below.trans (dropAscending.1 label later)).ne'
  conv_lhs => rw [← List.take_append_drop middle cases]
  rw [findCase, List.find?_append, ← findCase, ← findCase, upper, Option.or_none]

/-- In ascending cases a value from the middle on is not found before it. -/
theorem findCase_take_eq_none (ascending : Ascending format cases)
    (inBounds : middle < cases.length)
    (above : ¬ format.number value < format.number (cases.get ⟨middle, inBounds⟩).value) :
    findCase format value (cases.take middle) = none := by
  rw [findCase, List.find?_eq_none]
  intro label labelMem
  have split := ascending
  rw [Ascending, ← List.take_append_drop middle cases, List.pairwise_append,
    List.drop_eq_getElem_cons inBounds] at split
  have less := split.2.2 label labelMem _ List.mem_cons_self
  simpa using (less.trans_le (not_lt.mp above)).ne

theorem findCase_drop (lower : findCase format value (cases.take middle) = none) :
    findCase format value cases = findCase format value (cases.drop middle) := by
  conv_lhs => rw [← List.take_append_drop middle cases]
  rw [findCase, List.find?_append, ← findCase, ← findCase, lower, Option.none_or]

/-- A search over ascending cases finds the case of the value. -/
theorem executeDispatch_search (node : SwitchNode) (start : Nat) (cases : List CaseLabel)
    (rest : List SwitchInstruction) (ascending : Ascending format cases) :
    executeDispatch format value (generateBinaryCaseSearch node start cases ++ rest) .running =
      executeDispatch format value rest (afterSearch node (findCase format value cases)) := by
  fun_induction generateBinaryCaseSearch node start cases generalizing rest with
  | case1 start cases long middle middleCase lowerHalf upperIh lowerIh =>
    have inBounds : middle < cases.length := Nat.div_lt_self (by omega) (by decide)
    have upperAbsent : .label lowerHalf ∉
        generateBinaryCaseSearch node (start + middle) (cases.drop middle) := by
      apply label_not_mem_search
      intro lower finish equal
      rw [SwitchLabel.lowerHalf.injEq] at equal
      omega
    have lowerAbsent : ∀ label, (∀ lower finish, label ≠ .lowerHalf lower finish) →
        .label label ∉ .label lowerHalf ::
          generateBinaryCaseSearch node start (cases.take middle) := by
      intro label outer
      have absent : .label label ∉ generateBinaryCaseSearch node start (cases.take middle) :=
        label_not_mem_search node start _ fun lower finish equal =>
          absurd equal (outer lower finish)
      simp [absent, outer, lowerHalf]
    rw [List.cons_append, List.append_assoc, executeDispatch]
    by_cases below : format.number value < format.number middleCase.value
    · rw [if_pos ((cmplti_eq_one_iff _).mpr below),
        executeDispatch_seeking _ _ upperAbsent, List.cons_append, executeDispatch,
        if_pos rfl, lowerIh rest ascending.take, findCase_take ascending inBounds below]
    · have lowerNone := findCase_take_eq_none ascending inBounds below
      rw [if_neg (mt (cmplti_eq_one_iff _).mp below), upperIh _ ascending.drop,
        findCase_drop lowerNone]
      cases found : findCase format value (cases.drop middle) with
      | some label => exact executeDispatch_seeking _ _ (lowerAbsent _ (by simp))
      | none =>
        simp only [afterSearch]
        split_ifs with covered
        · have lowerRun := lowerIh rest ascending.take
          rw [lowerNone, afterSearch, if_pos covered] at lowerRun
          exact lowerRun
        · apply executeDispatch_seeking _ _ (lowerAbsent _ _)
          intro lower finish
          cases default : node.defaultNode <;> simp [switchDefaultLabel, default]
  | case2 start cases short => exact executeDispatch_tests node cases rest

/-! ## The table -/

/-- Where the cases of a table stand: at the distance of their number from a base. -/
def Tabulated (format : IntFormat) (base : ℤ) (nextValue : BitVec 64)
    (cases : List CaseLabel) : Prop :=
  ∀ label ∈ cases, ((label.value - nextValue).toNat : ℤ) = format.number label.value - base

/-- After a case the table goes on with the next number. -/
theorem tabulated_after {label : CaseLabel}
    (canonical : ∀ found ∈ label :: cases, format.Canonical found.value)
    (ascending : Ascending format (label :: cases)) :
    Tabulated format (format.number label.value + 1) (label.value + 1) cases := by
  intro found foundMem
  have less := List.rel_of_pairwise_cons ascending foundMem
  have distance := (canonical found (List.mem_cons_of_mem _ foundMem)).toNat_sub
    (canonical label List.mem_cons_self) less.le
  have shift : found.value - (label.value + 1) = found.value - label.value - 1 := by
    rw [sub_add_eq_sub_sub]
  have one : (1 : BitVec 64).toNat = 1 := rfl
  have atLeast : (1 : BitVec 64) ≤ found.value - label.value := by
    rw [BitVec.le_def, one]
    omega
  rw [shift, BitVec.toNat_sub_of_le atLeast, one]
  omega

/-- The entry of a table at an index: the case with the number there, if there is
one, and a gap below the number of some case. -/
theorem getElem?_jumpTable (gap : SwitchLabel) {base : ℤ} {nextValue : BitVec 64}
    (canonical : ∀ label ∈ cases, format.Canonical label.value)
    (ascending : Ascending format cases) (tabulated : Tabulated format base nextValue cases)
    (index : Nat) :
    (jumpTable gap nextValue cases)[index]? =
      match cases.find? fun label => format.number label.value = base + index with
      | some label => some (.caseLabel label.node)
      | none =>
        if ∃ label ∈ cases, base + index < format.number label.value then some gap
        else none := by
  induction cases generalizing base nextValue index with
  | nil => simp [jumpTable]
  | cons label cases ih =>
    have here := tabulated label List.mem_cons_self
    have later : ∀ found ∈ cases,
        format.number label.value < format.number found.value :=
      fun found foundMem => List.rel_of_pairwise_cons ascending foundMem
    rw [jumpTable]
    generalize (label.value - nextValue).toNat = width at here ⊢
    rcases Nat.lt_trichotomy index width with before | equal | after
    · rw [List.getElem?_append_left (by simpa using before),
        List.getElem?_replicate_of_lt before, List.find?_eq_none.mpr]
      · rw [if_pos ⟨label, List.mem_cons_self, by omega⟩]
      · intro found foundMem
        rcases List.mem_cons.mp foundMem with rfl | inRest
        · simp only [decide_eq_true_eq]
          omega
        · have less := later found inRest
          simp only [decide_eq_true_eq]
          omega
    · subst equal
      rw [List.getElem?_append_right (by simp), List.length_replicate, Nat.sub_self,
        List.getElem?_cons_zero, List.find?_cons_of_pos]
      simp only [decide_eq_true_eq]
      omega
    · have restEntry := ih (fun found foundMem =>
        canonical found (List.mem_cons_of_mem _ foundMem)) (List.Pairwise.of_cons ascending)
        (tabulated_after canonical ascending) (index - width - 1)
      have number_eq : format.number label.value + 1 + ((index - width - 1 : ℕ) : ℤ) =
          base + index := by omega
      rw [number_eq] at restEntry
      rw [List.getElem?_append_right (by simp; omega), List.length_replicate,
        List.getElem?_cons, if_neg (by omega), restEntry, List.find?_cons_of_neg]
      · simp only [List.mem_cons, exists_eq_or_imp]
        have passed : ¬ base + index < format.number label.value := by omega
        simp [passed]
      · simp only [decide_eq_true_eq]
        omega

/-- A computed branch reaches the entry of the table at its index. -/
theorem executeDispatch_table (table : List SwitchLabel) (index : Nat) :
    executeDispatch format value (table.map .jumpTableBranch) (.indexing index) =
      match table[index]? with
      | some label => .reaches label
      | none => .outsideTable := by
  induction table generalizing index with
  | nil => rfl
  | cons label table ih =>
    cases index with
    | zero =>
      rw [List.map_cons, executeDispatch, executeDispatch_seeking_end _ (by simp)]
      rfl
    | succ index =>
      rw [List.map_cons, executeDispatch, ih index]
      rfl

/-- The label of an optional case. -/
def foundLabel (node : SwitchNode) (found : Option CaseLabel) : SwitchLabel :=
  match found with
  | some label => .caseLabel label.node
  | none => switchDefaultLabel node

/-- What the dense form relies on: ascending cases of the format between the least
and the greatest value of the node. -/
structure DenseCases (format : IntFormat) (node : SwitchNode) : Prop where
  canonical : ∀ label ∈ node.cases, format.Canonical label.value
  ascending : Ascending format node.cases
  least_mem : ∃ label ∈ node.cases, label.value = node.minCaseValue
  greatest_mem : ∃ label ∈ node.cases, label.value = node.maxCaseValue
  least : ∀ label ∈ node.cases, format.number node.minCaseValue ≤ format.number label.value
  greatest : ∀ label ∈ node.cases, format.number label.value ≤ format.number node.maxCaseValue

def denseTable (node : SwitchNode) : List SwitchLabel :=
  jumpTable (switchDefaultLabel node) node.minCaseValue node.cases

namespace DenseCases

variable {node : SwitchNode}

theorem tabulated (dense : DenseCases format node) :
    Tabulated format (format.number node.minCaseValue) node.minCaseValue node.cases := by
  intro label labelMem
  obtain ⟨least, leastMem, leastEq⟩ := dense.least_mem
  have leastCanonical := dense.canonical least leastMem
  rw [leastEq] at leastCanonical
  exact (dense.canonical label labelMem).toNat_sub leastCanonical (dense.least label labelMem)

/-- The table has one entry for each number from the least to the greatest case. -/
theorem getElem?_denseTable (dense : DenseCases format node) (index : Nat) :
    (denseTable node)[index]? =
      if format.number node.minCaseValue + index ≤ format.number node.maxCaseValue then
        some (foundLabel node (node.cases.find? fun label =>
          format.number label.value = format.number node.minCaseValue + index))
      else none := by
  rw [denseTable, getElem?_jumpTable _ dense.canonical dense.ascending dense.tabulated]
  obtain ⟨greatest, greatestMem, greatestEq⟩ := dense.greatest_mem
  cases found : node.cases.find? fun label =>
      format.number label.value = format.number node.minCaseValue + index with
  | some label =>
    have inside := dense.greatest label (List.mem_of_find?_eq_some found)
    have number_eq := List.find?_some found
    rw [decide_eq_true_eq] at number_eq
    exact (if_pos (by omega)).symm
  | none =>
    rw [List.find?_eq_none] at found
    have notGreatest := found greatest greatestMem
    rw [decide_eq_true_eq, greatestEq] at notGreatest
    apply if_congr _ rfl rfl
    constructor
    · rintro ⟨label, labelMem, below⟩
      exact below.le.trans (dense.greatest label labelMem)
    · intro atMost
      exact ⟨greatest, greatestMem, by rw [greatestEq]; omega⟩

theorem length_denseTable (dense : DenseCases format node) :
    ((denseTable node).length : ℤ) =
      format.number node.maxCaseValue - format.number node.minCaseValue + 1 := by
  obtain ⟨greatest, greatestMem, greatestEq⟩ := dense.greatest_mem
  have nonneg := dense.least greatest greatestMem
  rw [greatestEq] at nonneg
  have last := dense.getElem?_denseTable
    (format.number node.maxCaseValue - format.number node.minCaseValue).toNat
  rw [if_pos (by omega)] at last
  have inBounds := (List.getElem?_eq_some_iff.mp last).1
  have past := dense.getElem?_denseTable
    ((format.number node.maxCaseValue - format.number node.minCaseValue).toNat + 1)
  rw [if_neg (by omega), List.getElem?_eq_none_iff] at past
  omega

/-- The computed branch of the dense form. -/
theorem executeDispatch_cbra (dense : DenseCases format node) :
    executeDispatch format value
        (.cbra (if node.minCaseValue = 0 then none else some node.minCaseValue) ::
          (denseTable node).map .jumpTableBranch) .running =
      if format.number node.minCaseValue ≤ format.number value ∧
          format.number value ≤ format.number node.maxCaseValue then
        .reaches (foundLabel node (findCase format value node.cases))
      else .outsideTable := by
  have index_eq : cbraIndex format value
      (if node.minCaseValue = 0 then none else some node.minCaseValue) =
        (format.read value - format.read node.minCaseValue).toNat := by
    by_cases zero : node.minCaseValue = 0
    · have readZero : format.read 0 = 0 := BitVec.setWidth_zero _ _
      rw [if_pos zero, zero, readZero, sub_zero]
      rfl
    · rw [if_neg zero]
      rfl
  rw [executeDispatch, index_eq, executeDispatch_table, dense.getElem?_denseTable]
  rcases le_or_gt (format.number node.minCaseValue) (format.number value) with atLeast | below
  · have distance := toNat_sub_read atLeast
    have number_eq : format.number node.minCaseValue +
        ((format.read value - format.read node.minCaseValue).toNat : ℤ) =
          format.number value := by omega
    rw [number_eq]
    by_cases atMost : format.number value ≤ format.number node.maxCaseValue
    · rw [if_pos atMost, if_pos ⟨atLeast, atMost⟩]
      rfl
    · rw [if_neg atMost, if_neg fun inside => atMost inside.2]
  · have distance := toNat_sub_read_of_lt below
    have width : format.number node.maxCaseValue - format.number value < 2 ^ format.bits :=
      number_sub_lt _ _
    rw [if_neg (by omega), if_neg fun inside => absurd inside.1 (not_le.mpr below)]

/-- The dense form, when its test for a negative value never succeeds. -/
theorem executeDispatch_dense [Compiler] (dense : DenseCases format node)
    (negativeTest : comparesUnsigned node = true → 0 ≤ format.number value) :
    executeDispatch format value (generateDenseSwitch node).dispatch .running =
      if format.number node.minCaseValue ≤ format.number value ∧
          format.number value ≤ format.number node.maxCaseValue then
        .reaches (foundLabel node (findCase format value node.cases))
      else if node.allCasesCovered then .outsideTable
      else .reaches (switchDefaultLabel node) := by
  have branch : executeDispatch format value _ .running = _ := dense.executeDispatch_cbra
  have absent : ∀ tests : List SwitchInstruction,
      (∀ label, .label label ∉ tests) → ∀ label, .label label ∉ tests ++
        .cbra (if node.minCaseValue = 0 then none else some node.minCaseValue) ::
          (denseTable node).map .jumpTableBranch := by
    intro tests testsAbsent label
    simp [testsAbsent label]
  rw [generateDenseSwitch]
  by_cases covered : node.allCasesCovered = true
  · simp only [covered, if_true, List.nil_append]
    exact branch
  · have negative : ∀ rest, executeDispatch format value
        ((if comparesUnsigned node = true then
          [.compareBranch .cmplti 0 (switchDefaultLabel node)] else []) ++ rest) .running =
        executeDispatch format value rest .running := by
      intro rest
      split_ifs with unsigned
      · rw [List.singleton_append, executeDispatch, if_neg]
        rw [cmplti_eq_one_iff, number_zero]
        exact not_lt.mpr (negativeTest unsigned)
      · rfl
    simp only [if_neg covered, List.append_assoc]
    rw [negative, List.cons_append, executeDispatch]
    by_cases below : format.number value < format.number node.minCaseValue
    · rw [if_pos ((cmplti_eq_one_iff _).mpr below), executeDispatch_seeking_end,
        if_neg fun inside => absurd inside.1 (not_le.mpr below)]
      exact absent [_] (by simp) _
    · rw [if_neg (mt (cmplti_eq_one_iff _).mp below), List.cons_append, executeDispatch]
      by_cases above : format.number node.maxCaseValue < format.number value
      · rw [if_pos ((cmpgti_eq_one_iff _).mpr above), executeDispatch_seeking_end,
          if_neg fun inside => absurd inside.2 (not_le.mpr above)]
        exact absent [] (by simp) _
      · rw [if_neg (mt (cmpgti_eq_one_iff _).mp above), List.nil_append]
        have inside := And.intro (not_lt.mp below) (not_lt.mp above)
        refine branch.trans ?_
        rw [if_pos inside, if_pos inside]

/-- The cases of a dense form that compares as unsigned are not negative. -/
theorem asUnsigned (dense : DenseCases format node)
    (positive : ∀ label ∈ node.cases, 0 ≤ label.value.toInt) :
    DenseCases format.asUnsigned node := by
  have same : ∀ label ∈ node.cases,
      format.asUnsigned.number label.value = format.number label.value := fun label labelMem =>
    ((dense.canonical label labelMem).asUnsigned (positive label labelMem)).2
  obtain ⟨least, leastMem, leastEq⟩ := dense.least_mem
  obtain ⟨greatest, greatestMem, greatestEq⟩ := dense.greatest_mem
  constructor
  · intro label labelMem
    exact ((dense.canonical label labelMem).asUnsigned (positive label labelMem)).1
  · apply dense.ascending.imp_of_mem
    intro first second firstMem secondMem less
    rw [same first firstMem, same second secondMem]
    exact less
  · exact ⟨least, leastMem, leastEq⟩
  · exact ⟨greatest, greatestMem, greatestEq⟩
  · intro label labelMem
    rw [← leastEq, same least leastMem, same label labelMem, leastEq]
    exact dense.least label labelMem
  · intro label labelMem
    rw [← greatestEq, same greatest greatestMem, same label labelMem, greatestEq]
    exact dense.greatest label labelMem

/-- With its range tests the dense form leads to the case found or the default. -/
theorem executeDispatch_tested [Compiler] (dense : DenseCases format node)
    (tested : node.allCasesCovered = false)
    (negativeTest : comparesUnsigned node = true → format.isUnsigned = true) :
    executeDispatch format value (generateDenseSwitch node).dispatch .running =
      .reaches (foundLabel node (findCase format value node.cases)) := by
  rw [dense.executeDispatch_dense fun unsigned =>
    number_nonneg (negativeTest unsigned) value]
  by_cases inside : format.number node.minCaseValue ≤ format.number value ∧
      format.number value ≤ format.number node.maxCaseValue
  · rw [if_pos inside]
  · have absent : findCase format value node.cases = none := by
      rw [findCase, List.find?_eq_none]
      intro label labelMem
      rw [decide_eq_true_eq]
      intro equal
      rw [← equal] at inside
      exact inside ⟨dense.least label labelMem, dense.greatest label labelMem⟩
    rw [if_neg inside, tested, absent]
    rfl

end DenseCases

private theorem or_unsigned_and (type mask : Nat) (inMask : kTypeUnsigned &&& mask ≠ 0) :
    ((type ||| kTypeUnsigned) &&& mask != 0) = true := by
  rw [bne_iff_ne, Nat.and_or_distrib_right, Ne, Nat.or_eq_zero_iff]
  exact fun both => inMask both.2

/-- The type keeps its width. -/
theorem intFormat?_asUnsigned [Compiler] {type : TypeRecord}
    (hasFormat : type.intFormat? = some format) :
    type.asUnsigned.intFormat? = some format.asUnsigned := by
  rw [TypeRecord.intFormat?] at hasFormat
  split_ifs at hasFormat with valid
  rw [Option.some.injEq] at hasFormat
  have primitive : type.isPrimitive = true := by
    have integral := valid.1
    rw [TypeRecord.isIntegral, Bool.and_eq_true] at integral
    exact integral.1
  have kind : ∀ mask, kTypeUnsigned &&& mask ≠ 0 →
      type.asUnsigned.isKind mask = true := by
    intro mask inMask
    rw [TypeRecord.isKind, Bool.and_eq_true]
    exact ⟨primitive, or_unsigned_and type.type mask inMask⟩
  have integral : type.asUnsigned.isIntegral = true := kind _ (by decide)
  have unsigned : type.asUnsigned.isUnsigned = true := by
    have unsignedKind := kind (kTypeUnsigned ||| kTypeBool) (by decide)
    rw [TypeRecord.isUnsigned, ← TypeRecord.isKind, ← TypeRecord.isKind, unsignedKind, Bool.or_true]
  have bitInt : type.asUnsigned.isBitInt = type.isBitInt := by
    have bits : (type.type ||| kTypeUnsigned) &&& kTypeBitInt = type.type &&& kTypeBitInt := by
      have disjoint : kTypeUnsigned &&& kTypeBitInt = 0 := by decide
      rw [Nat.and_or_distrib_right, disjoint, Nat.or_zero]
    simp only [TypeRecord.isBitInt, TypeLevel.hasType, TypeRecord.asUnsigned, bits]
    rfl
  have valueBits : type.asUnsigned.valueBits = type.valueBits := by
    simp only [TypeRecord.valueBits, bitInt]
    rfl
  rw [TypeRecord.intFormat?, dif_pos]
  · rw [← hasFormat, Option.some.injEq]
    simp only [asUnsigned, valueBits, unsigned]
  · rw [valueBits]
    exact ⟨integral, valid.2⟩

end DaveCC.Backend
