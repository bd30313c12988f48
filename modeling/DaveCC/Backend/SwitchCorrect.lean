import DaveCC.Backend.SwitchDispatch
import DaveCC.Frontend.SwitchAnalysis
import Mathlib.Data.Finset.Max

/-!
# When switch statements dispatch correctly

The labels are sorted by a truncated difference, the least and greatest value are
taken as signed, and the tests for values outside the cases are dropped when every
enumerator has a case. The result is the exact condition under which none of this
shows.
-/

namespace DaveCC.Frontend

open DaveCC.Arith DaveCC.Backend DaveCC.Container

namespace SwitchStatement

variable [Compiler] [TypeSizes]

/-- The values that the controlling expression can have at run time. -/
def Holds (statement : SwitchStatement) (value : BitVec 64) : Prop :=
  statement.format.Canonical value ∧ (statement.exprType.isBool = true → value = 0 ∨ value = 1) ∧
    ∀ constant ∈ statement.constant, value = constant

/-- The label that control has to reach for a value. -/
def target (statement : SwitchStatement) (value : BitVec 64) : SwitchLabel :=
  match statement.body.cases.find? fun label => label.value = value with
  | some label => .caseLabel label.node
  | none =>
    match statement.body.defaults.getLast? with
    | some node => .defaultLabel node
    | none => .breakLabel

/-- The number of a word in the control type. -/
def number (statement : SwitchStatement) (value : BitVec 64) : ℤ :=
  statement.controlFormat.number value

/-- No two labels have one value, and there is at most one default. -/
def Distinct (statement : SwitchStatement) : Prop :=
  (statement.body.cases.map CaseLabel.value).Nodup ∧ statement.body.defaults.length ≤ 1

/-- The dense form is chosen. The order of the cases does not matter for it. -/
def usesTable (statement : SwitchStatement) (options : SwitchOptions) : Bool :=
  choosesDense options (statement.analyze statement.body.cases)

def isConstantForm (statement : SwitchStatement) (options : SwitchOptions) : Bool :=
  statement.constant.isSome && options.optLevel1

/-- The table has one entry per value between two cases that bound the others: the
case of the value or the default label. -/
def OneEntryPerValue (statement : SwitchStatement) (table : List SwitchLabel) : Prop :=
  ∀ least ∈ statement.body.cases, ∀ greatest ∈ statement.body.cases,
    (∀ label ∈ statement.body.cases,
      statement.number least.value ≤ statement.number label.value ∧
        statement.number label.value ≤ statement.number greatest.value) →
    (table.length : ℤ) = statement.number greatest.value - statement.number least.value + 1 ∧
      ∀ value, statement.controlFormat.Canonical value →
        statement.number least.value ≤ statement.number value →
        statement.number value ≤ statement.number greatest.value →
        table[(statement.number value - statement.number least.value).toNat]? =
          some (statement.target value)

/-- The switch dispatches correctly whatever order `qsort` leaves. -/
structure Dispatches (statement : SwitchStatement) (options : SwitchOptions) : Prop where
  ordered : ∀ sorted, Qsorted compareCaseValue statement.body.cases sorted →
    sorted.Pairwise fun first second =>
      statement.number first.value ≤ statement.number second.value
  reported : ∀ sorted, Qsorted compareCaseValue statement.body.cases sorted →
    ¬ (statement.body.cases.map CaseLabel.value).Nodup →
      ∃ node value previous,
        SwitchError.duplicateCaseValue node value previous ∈ statement.errors sorted
  reaches : ∀ sorted, Qsorted compareCaseValue statement.body.cases sorted →
    statement.errors sorted = [] → ∀ value, statement.Holds value →
      (generateSwitchStatement options (statement.analyze sorted)).execute
        (statement.convert value) = .reaches (statement.target value)
  table : ∀ sorted, Qsorted compareCaseValue statement.body.cases sorted →
    statement.errors sorted = [] → statement.isConstantForm options = false →
      statement.usesTable options = true →
        statement.OneEntryPerValue (denseTable (statement.analyze sorted))

/-- The condition on the statement. -/
structure SwitchCondition (statement : SwitchStatement) (options : SwitchOptions) : Prop where
  /-- The low 32 bits of the difference of two cases have its sign. -/
  near : ∀ first ∈ statement.body.cases, ∀ second ∈ statement.body.cases,
    statement.number first.value < statement.number second.value →
      0 < ((second.value - first.value).setWidth 32).toInt
  /-- A table is not built for cases that a signed comparison orders differently. -/
  sameSide : statement.Distinct → statement.isConstantForm options = false →
    statement.usesTable options = true →
      ∀ first ∈ statement.body.cases, ∀ second ∈ statement.body.cases,
        first.value.toInt < second.value.toInt →
          statement.number first.value < statement.number second.value
  /-- With every enumerator covered, the expression has no other value that matters. -/
  covered : statement.Distinct → statement.isConstantForm options = false →
    statement.allCasesCovered = true → ∀ value, statement.Holds value →
      if statement.usesTable options = true then
        ∃ least ∈ statement.body.cases, ∃ greatest ∈ statement.body.cases,
          statement.number least.value ≤ statement.number (statement.convert value) ∧
            statement.number (statement.convert value) ≤ statement.number greatest.value
      else ∃ label ∈ statement.body.cases, value = label.value

variable {statement : SwitchStatement} {options : SwitchOptions} {sorted : List CaseLabel}

variable {first second : CaseLabel}

theorem number_eq_iff (firstMem : first ∈ statement.body.cases)
    (secondMem : second ∈ statement.body.cases) :
    statement.number first.value = statement.number second.value ↔
      first.value = second.value :=
  (statement.case_controlCanonical firstMem).number_eq_iff
    (statement.case_controlCanonical secondMem)

omit [Compiler] [TypeSizes] in
/-- The truncated difference changes its sign with the order of the operands, unless
it is the least number. -/
theorem compareCaseValue_opposed (first second : CaseLabel)
    (positive : 0 < compareCaseValue first second) : compareCaseValue second first < 0 := by
  have opposite : (second.value - first.value).setWidth 32 =
      -((first.value - second.value).setWidth 32) := by
    rw [← neg_sub, BitVec.setWidth_neg_of_le (by decide)]
  rw [compareCaseValue] at *
  rw [opposite, BitVec.toInt_neg_eq_of_msb]
  · omega
  · rw [BitVec.msb_eq_toInt, decide_eq_false_iff_not]
    omega

/-- `qsort` leaves the cases in ascending order, whatever it does with ties, exactly
when no difference is truncated to one of another sign. -/
theorem ordered_iff :
    (∀ sorted, Qsorted compareCaseValue statement.body.cases sorted →
        sorted.Pairwise fun first second =>
          statement.number first.value ≤ statement.number second.value) ↔
      ∀ first ∈ statement.body.cases, ∀ second ∈ statement.body.cases,
        statement.number first.value < statement.number second.value →
          0 < ((second.value - first.value).setWidth 32).toInt := by
  apply forall_qsorted_iff compareCaseValue_opposed
  intro first firstMem second secondMem equal
  rw [number_eq_iff firstMem secondMem] at equal
  simp [compareCaseValue, equal]

/-- Cases in order without reported neighbours are ascending. -/
theorem ascending_of_duplicateCaseValues_eq_nil
    (members : ∀ label ∈ sorted, label ∈ statement.body.cases)
    (ordered : sorted.Pairwise fun first second => statement.number first.value ≤ statement.number
      second.value) (unreported : duplicateCaseValues sorted = []) :
    Ascending statement.controlFormat sorted := by
  induction sorted with
  | nil => exact .nil
  | cons first rest ih =>
    cases rest with
    | nil => exact List.pairwise_singleton _ _
    | cons second rest =>
      rw [duplicateCaseValues, List.append_eq_nil_iff] at unreported
      obtain ⟨neighbours, later⟩ := unreported
      rw [List.pairwise_cons] at ordered
      have restAscending := ih (fun label labelMem =>
        members label (List.mem_cons_of_mem _ labelMem)) ordered.2 later
      have different : first.value ≠ second.value := by
        intro equal
        simp [equal] at neighbours
      have firstMem := members first List.mem_cons_self
      have secondMem := members second (by simp)
      have less : statement.number first.value < statement.number second.value :=
        lt_of_le_of_ne (ordered.1 second List.mem_cons_self)
          (mt (number_eq_iff firstMem secondMem).mp different)
      refine List.pairwise_cons.mpr ⟨?_, restAscending⟩
      intro found foundMem
      rcases List.mem_cons.mp foundMem with rfl | inRest
      · exact less
      · exact less.trans (List.rel_of_pairwise_cons restAscending inRest)

omit [Compiler] [TypeSizes] in
theorem duplicateCaseValues_eq_nil {labels : List CaseLabel}
    (distinct : (labels.map CaseLabel.value).Nodup) : duplicateCaseValues labels = [] := by
  induction labels with
  | nil => rfl
  | cons first rest ih =>
    cases rest with
    | nil => rfl
    | cons second rest =>
      simp only [List.map_cons] at distinct ih
      rw [List.nodup_cons] at distinct
      have different : first.value ≠ second.value := by
        intro equal
        exact distinct.1 (by simp [equal])
      rw [duplicateCaseValues, if_neg different, ih distinct.2]
      rfl

omit [Compiler] [TypeSizes] in
/-- Every report about a neighbour is one of a duplicate value. -/
theorem exists_duplicateCaseValue {labels : List CaseLabel}
    (reported : duplicateCaseValues labels ≠ []) :
    ∃ node value previous,
      SwitchError.duplicateCaseValue node value previous ∈ duplicateCaseValues labels := by
  induction labels with
  | nil => exact absurd rfl reported
  | cons first rest ih =>
    cases rest with
    | nil => exact absurd rfl reported
    | cons second rest =>
      by_cases equal : first.value = second.value
      · exact ⟨_, _, _, by rw [duplicateCaseValues, if_pos equal]; exact List.mem_cons_self⟩
      · rw [duplicateCaseValues, if_neg equal, List.nil_append] at reported ⊢
        exact ih reported

theorem nodup_of_ascending (perm : sorted.Perm statement.body.cases)
    (ascending : Ascending statement.controlFormat sorted) :
    (statement.body.cases.map CaseLabel.value).Nodup := by
  rw [← (perm.map CaseLabel.value).nodup_iff]
  have different : (sorted.map CaseLabel.value).Pairwise fun first second =>
      statement.number first < statement.number second := by
    rw [List.pairwise_map]
    exact ascending
  apply different.imp
  rintro first second less rfl
  exact lt_irrefl _ less

/-- Cases in order are reported exactly when the statement is not distinct. -/
theorem errors_eq_nil_iff (perm : sorted.Perm statement.body.cases)
    (ordered : sorted.Pairwise fun first second => statement.number first.value ≤ statement.number
      second.value) :
    statement.errors sorted = [] ↔ statement.Distinct := by
  have tail_iff : statement.body.defaults.tail = [] ↔ statement.body.defaults.length ≤ 1 := by
    rw [← List.length_eq_zero_iff, List.length_tail]
    omega
  rw [errors, List.append_eq_nil_iff, List.map_eq_nil_iff,
    statement.resolved.duplicateDefaults, tail_iff, Distinct, and_comm]
  apply and_congr_left'
  constructor
  · intro unreported
    exact nodup_of_ascending perm (ascending_of_duplicateCaseValues_eq_nil
      (fun label => perm.mem_iff.mp) ordered unreported)
  · intro distinct
    apply duplicateCaseValues_eq_nil
    exact (perm.map CaseLabel.value).nodup_iff.mpr distinct

theorem Distinct.ascending (distinct : statement.Distinct)
    (perm : sorted.Perm statement.body.cases) (ordered : sorted.Pairwise fun first second =>
      statement.number first.value ≤ statement.number second.value) :
    Ascending statement.controlFormat sorted := by
  apply ascending_of_duplicateCaseValues_eq_nil (fun label => perm.mem_iff.mp) ordered
  apply duplicateCaseValues_eq_nil
  exact (perm.map CaseLabel.value).nodup_iff.mpr distinct.1

/-! ## The case of a value -/

omit [Compiler] [TypeSizes] in
/-- A search for the only case that qualifies does not depend on the order. -/
theorem find?_eq_of_perm {labels : List CaseLabel} (perm : sorted.Perm labels)
    (distinct : (labels.map CaseLabel.value).Nodup) {test : CaseLabel → Bool}
    {value : BitVec 64} (exact' : ∀ label ∈ labels, test label = true ↔ label.value = value) :
    sorted.find? test = labels.find? fun label => label.value = value := by
  cases found : labels.find? fun label => label.value = value with
  | none =>
    rw [List.find?_eq_none] at found ⊢
    intro label labelMem
    have labelMem := perm.mem_iff.mp labelMem
    have different := found label labelMem
    rw [decide_eq_true_eq] at different
    exact mt (exact' label labelMem).mp different
  | some label =>
    have labelMem := List.mem_of_find?_eq_some found
    have labelValue := List.find?_some found
    rw [decide_eq_true_eq] at labelValue
    cases sortedFound : sorted.find? test with
    | none =>
      rw [List.find?_eq_none] at sortedFound
      exact absurd ((exact' label labelMem).mpr labelValue)
        (sortedFound label (perm.mem_iff.mpr labelMem))
    | some other =>
      have otherMem := perm.mem_iff.mp (List.mem_of_find?_eq_some sortedFound)
      have otherValue := (exact' other otherMem).mp (List.find?_some sortedFound)
      rw [List.inj_on_of_nodup_map distinct otherMem labelMem (otherValue.trans labelValue.symm)]

variable {value : BitVec 64}

/-- The label of the case found is the target of the value. -/
theorem foundLabel_eq_target (perm : sorted.Perm statement.body.cases)
    (distinct : statement.Distinct) {test : CaseLabel → Bool}
    (exact' : ∀ label ∈ statement.body.cases, test label = true ↔ label.value = value) :
    foundLabel (statement.analyze sorted) (sorted.find? test) = statement.target value := by
  rw [find?_eq_of_perm perm distinct.1 exact']
  unfold target
  cases statement.body.cases.find? fun label => label.value = value with
  | some label => rfl
  | none =>
    have default_eq : (statement.analyze sorted).defaultNode =
        statement.body.defaults.getLast? := statement.resolved.defaultNode
    cases last : statement.body.defaults.getLast? with
    | some node => simp [foundLabel, switchDefaultLabel, default_eq, last]
    | none => simp [foundLabel, switchDefaultLabel, default_eq, last]

/-- A case has the number of a converted value only when it has the value. -/
theorem number_convert_eq_iff (canonical : statement.format.Canonical value) {label : CaseLabel}
    (labelMem : label ∈ statement.body.cases) :
    statement.number label.value = statement.number (statement.convert value) ↔
      label.value = value := by
  rw [eq_comm (b := value), ← statement.convert_eq_case_iff canonical labelMem,
    eq_comm (a := statement.convert value)]
  exact (statement.case_controlCanonical labelMem).number_eq_iff
    (IntFormat.canonical_canonicalize _ _)

/-- The search by numbers leads to the target of the value. -/
theorem findCase_eq_target (perm : sorted.Perm statement.body.cases)
    (distinct : statement.Distinct) (canonical : statement.format.Canonical value) :
    foundLabel (statement.analyze sorted)
        (findCase statement.controlFormat (statement.convert value) sorted) =
      statement.target value := by
  apply foundLabel_eq_target perm distinct
  intro label labelMem
  rw [decide_eq_true_eq]
  exact number_convert_eq_iff canonical labelMem

theorem generateConstantSwitch_reaches (perm : sorted.Perm statement.body.cases)
    (distinct : statement.Distinct) (canonical : statement.format.Canonical value) :
    (generateConstantSwitch (statement.analyze sorted) (statement.convert value)).execute
        (statement.convert value) = .reaches (statement.target value) := by
  have label_eq : foundLabel (statement.analyze sorted)
      (sorted.find? fun label => label.value == statement.convert value) =
        statement.target value := by
    apply foundLabel_eq_target perm distinct
    intro label labelMem
    rw [beq_iff_eq, eq_comm, eq_comm (b := value)]
    exact statement.convert_eq_case_iff canonical labelMem
  rw [← label_eq, generateConstantSwitch]
  have cases_eq : (statement.analyze sorted).cases = sorted := rfl
  rw [cases_eq]
  cases sorted.find? fun label => label.value == statement.convert value with
  | some label => rfl
  | none =>
    rw [foundLabel, switchDefaultLabel]
    cases (statement.analyze sorted).defaultNode <;> rfl

theorem generateSparseSwitch_execute (ascending : Ascending statement.controlFormat sorted)
    (value : BitVec 64) :
    (generateSparseSwitch (statement.analyze sorted)).execute value =
      if statement.allCasesCovered = true ∧
          findCase statement.controlFormat value sorted = none then .fallsThrough
      else .reaches (foundLabel (statement.analyze sorted)
        (findCase statement.controlFormat value sorted)) := by
  have run : executeDispatch statement.controlFormat value _ .running = _ :=
    executeDispatch_search (statement.analyze sorted) 0 sorted [] ascending
  rw [List.append_nil] at run
  rw [SwitchCode.execute]
  have dispatch_eq : (generateSparseSwitch (statement.analyze sorted)).dispatch =
      generateBinaryCaseSearch (statement.analyze sorted) 0 sorted := rfl
  have format_eq : wordFormat (some (generateSparseSwitch
      (statement.analyze sorted)).exprType) = statement.controlFormat := rfl
  rw [dispatch_eq, format_eq, run]
  cases findCase statement.controlFormat value sorted with
  | some label => simp [afterSearch, executeDispatch, foundLabel]
  | none =>
    have covered_eq : (statement.analyze sorted).allCasesCovered = statement.allCasesCovered := rfl
    rw [afterSearch, covered_eq]
    cases statement.allCasesCovered with
    | true => simp [executeDispatch, generateSparseSwitch]
    | false => simp [executeDispatch, foundLabel]

/-- A table is built only for a statement with cases. -/
theorem cases_ne_nil (table : statement.usesTable options = true) : statement.body.cases ≠ [] := by
  intro empty
  rw [usesTable, choosesDense] at table
  simp only [analyze, empty, List.length_nil, Nat.not_lt_zero, decide_false, Bool.and_false,
    Bool.false_and, reduceCtorEq] at table

/-- Cases that a signed comparison orders in the same way have the table's least and
greatest value. -/
theorem denseCases (perm : sorted.Perm statement.body.cases)
    (nonempty : statement.body.cases ≠ []) (ascending : Ascending statement.controlFormat sorted)
      (sameSide : ∀ first ∈ statement.body.cases, ∀ second ∈ statement.body.cases, first.value.toInt
      < second.value.toInt → statement.number first.value < statement.number second.value) :
    DenseCases statement.controlFormat (statement.analyze sorted) where
  canonical := fun label labelMem =>
    statement.case_controlCanonical (perm.mem_iff.mp labelMem)
  ascending := ascending
  least_mem := by
    obtain ⟨label, labelMem, labelEq⟩ := statement.resolved.least_mem nonempty
    exact ⟨label, perm.mem_iff.mpr labelMem, labelEq⟩
  greatest_mem := by
    obtain ⟨label, labelMem, labelEq⟩ := statement.resolved.greatest_mem nonempty
    exact ⟨label, perm.mem_iff.mpr labelMem, labelEq⟩
  least := by
    intro label labelMem
    obtain ⟨least, leastMem, leastEq⟩ := statement.resolved.least_mem nonempty
    have labelMem := perm.mem_iff.mp labelMem
    have atMost := statement.resolved.least label labelMem
    rw [← leastEq] at atMost
    rw [analyze, ← leastEq]
    rcases atMost.lt_or_eq with less | equal
    · exact (sameSide least leastMem label labelMem less).le
    · rw [BitVec.eq_of_toInt_eq equal]
  greatest := by
    intro label labelMem
    obtain ⟨greatest, greatestMem, greatestEq⟩ := statement.resolved.greatest_mem nonempty
    have labelMem := perm.mem_iff.mp labelMem
    have atMost := statement.resolved.greatest label labelMem
    rw [← greatestEq] at atMost
    rw [analyze, ← greatestEq]
    rcases atMost.lt_or_eq with less | equal
    · exact (sameSide label labelMem greatest greatestMem less).le
    · rw [BitVec.eq_of_toInt_eq equal]

section

variable (perm : sorted.Perm statement.body.cases) (distinct : statement.Distinct)
  (dense : DenseCases statement.controlFormat (statement.analyze sorted))

include perm distinct dense

/-- The dense form with its range tests leads to the target. -/
theorem generateDenseSwitch_tested (tested : statement.allCasesCovered = false)
    {value : BitVec 64} (canonical : statement.format.Canonical value) :
    (generateDenseSwitch (statement.analyze sorted)).execute (statement.convert value) =
      .reaches (statement.target value) := by
  have found := findCase_eq_target perm distinct canonical
  rw [SwitchCode.execute]
  by_cases unsigned : comparesUnsigned (statement.analyze sorted) = true
  · have format_eq : wordFormat (some (generateDenseSwitch
        (statement.analyze sorted)).exprType) = statement.controlFormat.asUnsigned := by
      have converted := intFormat?_asUnsigned statement.hasControlFormat
      rw [generateDenseSwitch]
      simp only [unsigned, if_true]
      exact congrArg (Option.getD · addressFormat) converted
    have positive : ∀ label ∈ (statement.analyze sorted).cases, 0 ≤ label.value.toInt := by
      rw [comparesUnsigned, Bool.and_eq_true] at unsigned
      have positive := unsigned.2
      simp only [analyze, allCasesPositive, resolver_cases, Bool.not_eq_true',
        List.any_eq_false] at positive
      intro label labelMem
      simpa [BitVec.slt] using positive label (perm.mem_iff.mp labelMem)
    have sameCase : findCase statement.controlFormat.asUnsigned (statement.convert value)
        (statement.analyze sorted).cases =
          findCase statement.controlFormat (statement.convert value) sorted := by
      simp only [findCase, IntFormat.asUnsigned_number_eq_iff]
      rfl
    rw [format_eq, (dense.asUnsigned positive).executeDispatch_tested tested fun _ => rfl,
      sameCase, found]
  · have format_eq : wordFormat (some (generateDenseSwitch
        (statement.analyze sorted)).exprType) = statement.controlFormat := by
      rw [generateDenseSwitch]
      simp only [unsigned]
      rfl
    rw [format_eq, dense.executeDispatch_tested tested fun unsigned' => absurd unsigned' unsigned]
    exact congrArg SwitchOutcome.reaches found

/-- The dense form without range tests leads to the target of the values between the
least and the greatest case, and leaves its table for every other value. -/
theorem generateDenseSwitch_covered (covered : statement.allCasesCovered = true)
    {value : BitVec 64} (canonical : statement.format.Canonical value) :
    (generateDenseSwitch (statement.analyze sorted)).execute (statement.convert value) =
      if ∃ least ∈ statement.body.cases, ∃ greatest ∈ statement.body.cases,
          statement.number least.value ≤ statement.number (statement.convert value) ∧
            statement.number (statement.convert value) ≤ statement.number greatest.value then
        .reaches (statement.target value)
      else .outsideTable := by
  have covered' : (statement.analyze sorted).allCasesCovered = true := covered
  have signed : comparesUnsigned (statement.analyze sorted) = false := by
    simp [comparesUnsigned, covered']
  have format_eq : wordFormat (some (generateDenseSwitch
      (statement.analyze sorted)).exprType) = statement.controlFormat := by
    rw [generateDenseSwitch]
    simp only [signed, Bool.false_eq_true, if_false]
    rfl
  have range_iff : (∃ least ∈ statement.body.cases, ∃ greatest ∈ statement.body.cases,
      statement.number least.value ≤ statement.number (statement.convert value) ∧
        statement.number (statement.convert value) ≤ statement.number greatest.value) ↔
      statement.number (statement.analyze sorted).minCaseValue ≤
          statement.number (statement.convert value) ∧
        statement.number (statement.convert value) ≤
          statement.number (statement.analyze sorted).maxCaseValue := by
    constructor
    · rintro ⟨least, leastMem, greatest, greatestMem, atLeast, atMost⟩
      exact ⟨(dense.least least (perm.mem_iff.mpr leastMem)).trans atLeast,
        atMost.trans (dense.greatest greatest (perm.mem_iff.mpr greatestMem))⟩
    · obtain ⟨least, leastMem, leastEq⟩ := dense.least_mem
      obtain ⟨greatest, greatestMem, greatestEq⟩ := dense.greatest_mem
      rintro ⟨atLeast, atMost⟩
      rw [← leastEq] at atLeast
      rw [← greatestEq] at atMost
      exact ⟨least, perm.mem_iff.mp leastMem, greatest, perm.mem_iff.mp greatestMem,
        atLeast, atMost⟩
  rw [SwitchCode.execute, format_eq, dense.executeDispatch_dense (by simp [signed]), covered',
    if_pos rfl, if_congr range_iff rfl rfl]
  by_cases inside : statement.number (statement.analyze sorted).minCaseValue ≤
      statement.number (statement.convert value) ∧
        statement.number (statement.convert value) ≤
          statement.number (statement.analyze sorted).maxCaseValue
  · have found := findCase_eq_target perm distinct canonical
    rw [if_pos inside]
    simp only [number] at inside
    rw [if_pos inside]
    exact congrArg SwitchOutcome.reaches found
  · rw [if_neg inside]
    simp only [number] at inside
    rw [if_neg inside]

/-- The entries of the dense table. -/
theorem oneEntryPerValue : statement.OneEntryPerValue (denseTable (statement.analyze sorted)) := by
  intro least leastMem greatest greatestMem bounds
  obtain ⟨minimum, minimumMem, minimumEq⟩ := dense.least_mem
  obtain ⟨maximum, maximumMem, maximumEq⟩ := dense.greatest_mem
  have least_eq : statement.number (statement.analyze sorted).minCaseValue =
      statement.number least.value := by
    apply le_antisymm (dense.least least (perm.mem_iff.mpr leastMem))
    rw [← minimumEq]
    exact (bounds minimum (perm.mem_iff.mp minimumMem)).1
  have greatest_eq : statement.number (statement.analyze sorted).maxCaseValue =
      statement.number greatest.value := by
    apply le_antisymm _ (dense.greatest greatest (perm.mem_iff.mpr greatestMem))
    rw [← maximumEq]
    exact (bounds maximum (perm.mem_iff.mp maximumMem)).2
  have length := dense.length_denseTable
  simp only [number] at *
  rw [greatest_eq, least_eq] at length
  refine ⟨length, ?_⟩
  intro value canonical atLeast atMost
  rw [dense.getElem?_denseTable, least_eq, greatest_eq, if_pos (by omega)]
  congr 1
  apply foundLabel_eq_target perm distinct
  intro label labelMem
  have number_eq : statement.controlFormat.number least.value +
      ((statement.controlFormat.number value -
        statement.controlFormat.number least.value).toNat : ℤ) =
        statement.controlFormat.number value := by omega
  rw [number_eq, decide_eq_true_eq]
  exact (statement.case_controlCanonical labelMem).number_eq_iff canonical

end

/-- A table built for cases that a signed comparison orders differently has a gap in
the place of its first case. -/
theorem getElem?_denseTable_zero (perm : sorted.Perm statement.body.cases)
    (ascending : Ascending statement.controlFormat sorted)
    (firstMem : first ∈ statement.body.cases) (secondMem : second ∈ statement.body.cases)
    (less : first.value.toInt < second.value.toInt)
    (reversed : statement.number second.value ≤ statement.number first.value) :
    (denseTable (statement.analyze sorted))[0]? =
      some (switchDefaultLabel (statement.analyze sorted)) := by
  have nonempty : statement.body.cases ≠ [] := List.ne_nil_of_mem firstMem
  obtain ⟨minimum, minimumMem, minimumEq⟩ := statement.resolved.least_mem nonempty
  have minimumLe := statement.resolved.least first firstMem
  rw [← minimumEq] at minimumLe
  have firstNumber := (statement.case_controlCanonical firstMem).number_eq
  have secondNumber := (statement.case_controlCanonical secondMem).number_eq
  have minimumNumber := (statement.case_controlCanonical minimumMem).number_eq
  rw [number, number, firstNumber, secondNumber] at reversed
  cases sorted with
  | nil => exact absurd perm.symm.eq_nil nonempty
  | cons head rest =>
    have headLe : statement.controlFormat.number head.value ≤
        statement.controlFormat.number second.value := by
      rcases List.mem_cons.mp (perm.mem_iff.mpr secondMem) with rfl | later
      · exact le_rfl
      · exact (List.rel_of_pairwise_cons ascending later).le
    have different : head.value ≠ (statement.analyze (head :: rest)).minCaseValue := by
      intro equal
      have equal : head.value = minimum.value := equal.trans minimumEq.symm
      rw [equal, minimumNumber, secondNumber] at headLe
      have firstBits := BitVec.toInt_eq_toNat_cond first.value
      have secondBits := BitVec.toInt_eq_toNat_cond second.value
      have minimumBits := BitVec.toInt_eq_toNat_cond minimum.value
      split_ifs at * <;> omega
    have gap : 0 < (head.value - (statement.analyze (head :: rest)).minCaseValue).toNat := by
      rw [Nat.pos_iff_ne_zero, Ne, ← BitVec.toNat_zero (w := 64), BitVec.toNat_inj]
      exact sub_ne_zero.mpr different
    have cases_eq : (statement.analyze (head :: rest)).cases = head :: rest := rfl
    rw [denseTable, cases_eq, jumpTable, List.getElem?_append_left (by simpa using gap),
      List.getElem?_replicate_of_lt gap]

/-! ## The exact condition -/

theorem choosesDense_analyze (perm : sorted.Perm statement.body.cases) :
    choosesDense options (statement.analyze sorted) = statement.usesTable options := by
  have length_eq : (statement.analyze sorted).cases.length =
      (statement.analyze statement.body.cases).cases.length := perm.length_eq
  rw [usesTable, choosesDense, choosesDense, length_eq]
  rfl

theorem generateSwitchStatement_general (perm : sorted.Perm statement.body.cases)
    (general : statement.isConstantForm options = false) :
    generateSwitchStatement options (statement.analyze sorted) =
      if statement.usesTable options = true then
        generateDenseSwitch (statement.analyze sorted)
      else generateSparseSwitch (statement.analyze sorted) := by
  rw [generateSwitchStatement]
  simp only [choosesDense_analyze perm]
  have constant_eq : (statement.analyze sorted).constant =
      statement.constant.map statement.convert := rfl
  rw [isConstantForm] at general
  rw [constant_eq]
  cases constant : statement.constant with
  | none => rfl
  | some value =>
    rw [constant, Option.isSome_some, Bool.true_and] at general
    simp [general]

/-- The condition makes every form of the switch lead to the target. -/
theorem SwitchCondition.reaches (condition : SwitchCondition statement options)
    (outcome : Qsorted compareCaseValue statement.body.cases sorted)
    (distinct : statement.Distinct) (holds : statement.Holds value) :
    (generateSwitchStatement options (statement.analyze sorted)).execute
      (statement.convert value) = .reaches (statement.target value) := by
  have perm := outcome.perm
  have ascending := distinct.ascending perm (ordered_iff.mpr condition.near sorted outcome)
  have canonical := holds.1
  cases general : statement.isConstantForm options with
  | true =>
    rw [isConstantForm, Bool.and_eq_true, Option.isSome_iff_exists] at general
    obtain ⟨⟨constant, constantEq⟩, optLevel1⟩ := general
    have value_eq := holds.2.2 constant constantEq
    have node_eq : (statement.analyze sorted).constant =
        some (statement.convert value) := by
      rw [analyze, constantEq, value_eq]
      rfl
    rw [generateSwitchStatement, node_eq]
    simp only [optLevel1, if_true]
    exact generateConstantSwitch_reaches perm distinct canonical
  | false =>
    rw [generateSwitchStatement_general perm general]
    split_ifs with table
    · have dense := denseCases perm (cases_ne_nil table) ascending
        (condition.sameSide distinct general table)
      cases covered : statement.allCasesCovered with
      | false => exact generateDenseSwitch_tested perm distinct dense covered canonical
      | true =>
        have inside := condition.covered distinct general covered value holds
        rw [if_pos table] at inside
        rw [generateDenseSwitch_covered perm distinct dense covered canonical, if_pos inside]
    · rw [generateSparseSwitch_execute ascending, findCase_eq_target perm distinct canonical,
        if_neg]
      rintro ⟨covered, absent⟩
      have inside := condition.covered distinct general covered value holds
      rw [if_neg table] at inside
      obtain ⟨label, labelMem, equal⟩ := inside
      rw [findCase, List.find?_eq_none] at absent
      apply absent label (perm.mem_iff.mpr labelMem)
      rw [decide_eq_true_eq]
      exact (number_convert_eq_iff canonical labelMem).mpr equal.symm

/-- A switch dispatches correctly, whatever order `qsort` leaves, exactly when the low
32 bits of the differences of its cases have their signs, a table is not built for
cases on both sides of the sign bit, and no value outside covered cases matters. -/
theorem dispatches_iff (statement : SwitchStatement) (options : SwitchOptions) :
    statement.Dispatches options ↔ statement.SwitchCondition options := by
  constructor
  · intro dispatches
    have near := ordered_iff.mp dispatches.ordered
    obtain ⟨sorted, outcome⟩ := exists_qsorted compareCaseValue statement.body.cases
    have perm := outcome.perm
    have ordered := dispatches.ordered sorted outcome
    have sameSide : statement.Distinct → statement.isConstantForm options = false →
        statement.usesTable options = true →
          ∀ first ∈ statement.body.cases, ∀ second ∈ statement.body.cases,
            first.value.toInt < second.value.toInt →
              statement.number first.value < statement.number second.value := by
      intro distinct general table first firstMem second secondMem less
      by_contra reversed
      have noErrors := (errors_eq_nil_iff perm ordered).mpr distinct
      have gap := getElem?_denseTable_zero perm (distinct.ascending perm ordered) firstMem
        secondMem less (not_lt.mp reversed)
      have nonempty : statement.body.cases.toFinset.Nonempty :=
        ⟨first, List.mem_toFinset.mpr firstMem⟩
      obtain ⟨least, leastMem, leastLe⟩ :=
        statement.body.cases.toFinset.exists_min_image (statement.number ·.value) nonempty
      obtain ⟨greatest, greatestMem, leGreatest⟩ :=
        statement.body.cases.toFinset.exists_max_image (statement.number ·.value) nonempty
      rw [List.mem_toFinset] at leastMem greatestMem
      have entries := (dispatches.table sorted outcome noErrors general table least leastMem
        greatest greatestMem fun label labelMem =>
          ⟨leastLe label (List.mem_toFinset.mpr labelMem),
            leGreatest label (List.mem_toFinset.mpr labelMem)⟩).2
      have entry := entries least.value (statement.case_controlCanonical leastMem) le_rfl
        (leastLe greatest (List.mem_toFinset.mpr greatestMem))
      rw [sub_self, Int.toNat_zero, gap, Option.some.injEq, target] at entry
      cases found : statement.body.cases.find? fun label => label.value = least.value with
      | none =>
        rw [List.find?_eq_none] at found
        exact found least leastMem (by simp)
      | some label =>
        rw [found, switchDefaultLabel] at entry
        cases default : (statement.analyze sorted).defaultNode <;> simp [default] at entry
    refine ⟨near, sameSide, ?_⟩
    intro distinct general covered value holds
    have noErrors := (errors_eq_nil_iff perm ordered).mpr distinct
    have ascending := distinct.ascending perm ordered
    have reaches := dispatches.reaches sorted outcome noErrors value holds
    rw [generateSwitchStatement_general perm general] at reaches
    split_ifs at reaches ⊢ with table
    · have dense := denseCases perm (cases_ne_nil table) ascending (sameSide distinct general table)
      rw [generateDenseSwitch_covered perm distinct dense covered holds.1] at reaches
      by_contra outside
      rw [if_neg outside] at reaches
      cases reaches
    · rw [generateSparseSwitch_execute ascending] at reaches
      cases found : findCase statement.controlFormat (statement.convert value) sorted with
      | none =>
        rw [if_pos ⟨covered, found⟩] at reaches
        cases reaches
      | some label =>
        have labelMem := perm.mem_iff.mp (List.mem_of_find?_eq_some found)
        have labelNumber := List.find?_some found
        rw [decide_eq_true_eq] at labelNumber
        exact ⟨label, labelMem, ((number_convert_eq_iff holds.1 labelMem).mp labelNumber).symm⟩
  · intro condition
    have ordered := ordered_iff.mpr condition.near
    refine ⟨ordered, ?_, ?_, ?_⟩
    · intro sorted outcome repeated
      have reported : duplicateCaseValues sorted ≠ [] := by
        intro unreported
        exact repeated (nodup_of_ascending outcome.perm
          (ascending_of_duplicateCaseValues_eq_nil (fun label => outcome.perm.mem_iff.mp)
            (ordered sorted outcome) unreported))
      obtain ⟨node, value, previous, member⟩ := exists_duplicateCaseValue reported
      exact ⟨node, value, previous, List.mem_append_right _ member⟩
    · intro sorted outcome noErrors value holds
      have distinct := (errors_eq_nil_iff outcome.perm (ordered sorted outcome)).mp noErrors
      exact condition.reaches outcome distinct holds
    · intro sorted outcome noErrors general table
      have distinct := (errors_eq_nil_iff outcome.perm (ordered sorted outcome)).mp noErrors
      exact oneEntryPerValue outcome.perm distinct
        (denseCases outcome.perm (cases_ne_nil table)
          (distinct.ascending outcome.perm (ordered sorted outcome))
          (condition.sameSide distinct general table))

/-- The cases for the least `int`, 1 to 14 and the greatest `int`. -/
def farApartBody : SwitchedStatement :=
  ([-2147483648, 1, 2, 3, 4, 5, 6, 7, 8, 9, 10, 11, 12, 13, 14, 2147483647].zipIdx).foldr
    (fun label statement => .caseLabel ⟨label.1, label.2⟩ statement) .leaf

/-- A switch on an `int`. The sorted array ends with its least case, and the search
for it goes into the lower half. -/
def farApart : SwitchStatement where
  exprType := { declarator := .primitive, type := kTypeInt, size := 4 }
  enumerators := []
  constant := none
  body := farApartBody
  format := { bits := 32, isUnsigned := false, positive := by decide, fits := by decide }
  hasFormat := by
    have unsigned : TypeRecord.isUnsigned
        { declarator := .primitive, type := kTypeInt, size := 4 } = false := by
      have notChar : (kTypeInt == kTypeChar) = false := by decide
      simp only [TypeRecord.isUnsigned, notChar, Bool.and_false, Bool.or_false]
      decide
    rw [TypeRecord.intFormat?, dif_pos (by decide)]
    simp only [unsigned]
    rfl
  wellFormed := by
    intro bitInt
    exact absurd bitInt (by decide)
  caseCanonical := by
    unfold IntFormat.Canonical
    decide
  constantCanonical := by simp

/-- No choice of the plain types puts these cases in order. -/
theorem farApart_unordered :
    ¬ farApart.Dispatches { optLevel1 := false, targetHasJumpTable := true } := by
  intro dispatches
  have near := ordered_iff.mp dispatches.ordered
  have least : (⟨-2147483648, 0⟩ : CaseLabel) ∈ farApartBody.cases := by decide
  have greatest : (⟨2147483647, 15⟩ : CaseLabel) ∈ farApartBody.cases := by decide
  have negative : allCasesPositive farApartBody.cases = false := by decide
  have signed : farApart.controlFormat.isUnsigned = false := by
    rcases farApart.controlFormat_cases with same | ⟨type, isUnsigned, promoted, -, sign⟩
    · rw [same]
      rfl
    · rw [promoted]
      rcases sign with rfl | rfl
      · rfl
      · exact negative
  have less : farApart.number (-2147483648) < farApart.number 2147483647 := by
    have leastNumber := (farApart.case_controlCanonical least).number_eq
    have greatestNumber := (farApart.case_controlCanonical greatest).number_eq
    rw [signed] at leastNumber greatestNumber
    rw [number, number, leastNumber, greatestNumber]
    decide
  have positive := near _ least _ greatest less
  exact absurd positive (by decide)

/-- The sizes of the targets with 64-bit `long`. -/
abbrev lp64 : TypeSizes where
  intSize := 4
  longSize := 8
  longLongSize := 8
  intSize_pos := by decide
  intSize_le := by decide
  longSize_le := by decide
  longLongSize_eq := rfl

omit [Compiler] [TypeSizes] in
theorem not_dispatches_farApart :
    letI : Compiler := ⟨true⟩
    letI : TypeSizes := lp64
    ¬ farApart.Dispatches { optLevel1 := false, targetHasJumpTable := true } :=
  letI : Compiler := ⟨true⟩
  letI : TypeSizes := lp64
  farApart_unordered

end SwitchStatement

end DaveCC.Frontend
