import DaveCC.Frontend.SwitchSemantics

/-!
# What the analysis of a switch establishes

The visitor finds exactly the labels of its switch, and the least and greatest
case value as signed numbers. Every case value and every value of the controlling
expression keeps its identity in the control type.
-/

namespace DaveCC.Frontend

open DaveCC.Arith DaveCC.Backend DaveCC.Container SwitchResolver

/-- A resolver that has seen the given labels of its switch. -/
structure Resolved (resolver : SwitchResolver) (labels : List CaseLabel)
    (defaults : List Nat) : Prop where
  cases : resolver.cases = labels
  defaultNode : resolver.defaultNode = defaults.getLast?
  duplicateDefaults : resolver.duplicateDefaults = defaults.tail
  least : ∀ label ∈ labels, resolver.minCaseValue.toInt ≤ label.value.toInt
  greatest : ∀ label ∈ labels, label.value.toInt ≤ resolver.maxCaseValue.toInt
  least_mem : labels ≠ [] → ∃ label ∈ labels, label.value = resolver.minCaseValue
  greatest_mem : labels ≠ [] → ∃ label ∈ labels, label.value = resolver.maxCaseValue
  none_least : labels = [] → resolver.minCaseValue = BitVec.intMax 64
  none_greatest : labels = [] → resolver.maxCaseValue = BitVec.intMin 64

namespace Resolved

variable {resolver : SwitchResolver} {labels : List CaseLabel} {defaults : List Nat}

theorem initial : Resolved .initial [] [] := by
  constructor <;> simp [SwitchResolver.initial]

private theorem toInt_min_le (value least : BitVec 64) :
    (if value.slt least then value else least).toInt ≤ value.toInt ∧
      (if value.slt least then value else least).toInt ≤ least.toInt := by
  by_cases less : value.slt least = true
  · rw [if_pos less]
    simp only [BitVec.slt, decide_eq_true_eq] at less
    omega
  · rw [if_neg less]
    simp only [BitVec.slt, decide_eq_true_eq] at less
    omega

private theorem toInt_le_max (value greatest : BitVec 64) :
    value.toInt ≤ (if greatest.slt value then value else greatest).toInt ∧
      greatest.toInt ≤ (if greatest.slt value then value else greatest).toInt := by
  by_cases less : greatest.slt value = true
  · rw [if_pos less]
    simp only [BitVec.slt, decide_eq_true_eq] at less
    omega
  · rw [if_neg less]
    simp only [BitVec.slt, decide_eq_true_eq] at less
    omega

section

variable (resolved : Resolved resolver labels defaults)

include resolved

/-- A new label becomes the least when none was seen, or when it is below. -/
private theorem least_of_addCase (label : CaseLabel) :
    ∃ found ∈ labels ++ [label], found.value = (resolver.addCase label).minCaseValue := by
  by_cases less : label.value.slt resolver.minCaseValue = true
  · exact ⟨label, by simp, by simp [SwitchResolver.addCase, less]⟩
  · by_cases empty : labels = []
    · refine ⟨label, by simp, ?_⟩
      have initial := resolved.none_least empty
      simp only [SwitchResolver.addCase, if_neg less]
      rw [initial] at less ⊢
      apply BitVec.eq_of_toInt_eq
      have top := BitVec.toInt_lt (x := label.value)
      simp only [BitVec.slt, decide_eq_true_eq, BitVec.toInt_intMax] at less ⊢
      omega
    · obtain ⟨found, foundMem, foundEq⟩ := resolved.least_mem empty
      refine ⟨found, List.mem_append_left _ foundMem, ?_⟩
      simp [SwitchResolver.addCase, less, foundEq]

private theorem greatest_of_addCase (label : CaseLabel) :
    ∃ found ∈ labels ++ [label], found.value = (resolver.addCase label).maxCaseValue := by
  by_cases less : resolver.maxCaseValue.slt label.value = true
  · exact ⟨label, by simp, by simp [SwitchResolver.addCase, less]⟩
  · by_cases empty : labels = []
    · refine ⟨label, by simp, ?_⟩
      have initial := resolved.none_greatest empty
      simp only [SwitchResolver.addCase, if_neg less]
      rw [initial] at less ⊢
      apply BitVec.eq_of_toInt_eq
      have bottom := BitVec.le_toInt (x := label.value)
      simp only [BitVec.slt, decide_eq_true_eq, BitVec.toInt_intMin] at less ⊢
      omega
    · obtain ⟨found, foundMem, foundEq⟩ := resolved.greatest_mem empty
      refine ⟨found, List.mem_append_left _ foundMem, ?_⟩
      simp [SwitchResolver.addCase, less, foundEq]

theorem addCase (label : CaseLabel) :
    Resolved (resolver.addCase label) (labels ++ [label]) defaults where
  cases := by rw [SwitchResolver.addCase, resolved.cases]
  defaultNode := resolved.defaultNode
  duplicateDefaults := resolved.duplicateDefaults
  least := by
    intro found foundMem
    have bounds := toInt_min_le label.value resolver.minCaseValue
    rcases List.mem_append.mp foundMem with earlier | last
    · exact bounds.2.trans (resolved.least found earlier)
    · rw [List.mem_singleton.mp last]
      exact bounds.1
  greatest := by
    intro found foundMem
    have bounds := toInt_le_max label.value resolver.maxCaseValue
    rcases List.mem_append.mp foundMem with earlier | last
    · exact (resolved.greatest found earlier).trans bounds.2
    · rw [List.mem_singleton.mp last]
      exact bounds.1
  least_mem := fun _ => resolved.least_of_addCase label
  greatest_mem := fun _ => resolved.greatest_of_addCase label
  none_least := by simp
  none_greatest := by simp

theorem addDefault (node : Nat) : Resolved (resolver.addDefault node) labels (defaults ++ [node]) :=
  { resolved with
    cases := resolved.cases
    defaultNode := by simp [SwitchResolver.addDefault]
    duplicateDefaults := by
      simp only [SwitchResolver.addDefault, resolved.defaultNode, resolved.duplicateDefaults]
      cases defaults with
      | nil => rfl
      | cons first rest => simp }

/-- Only the labels of the switch matter. -/
theorem of_fields (level : Nat) : Resolved { resolver with switchLevel := level } labels defaults :=
  { resolved with }

end

end Resolved

/-- Inside a nested switch the visitor records nothing. -/
theorem resolveSwitchStatement_nested (statement : SwitchedStatement) (resolver : SwitchResolver)
    (nested : 1 < resolver.switchLevel) : resolveSwitchStatement statement resolver = resolver := by
  induction statement generalizing resolver with
  | leaf => rfl
  | children first rest firstIh restIh =>
    rw [resolveSwitchStatement, firstIh resolver nested, restIh resolver nested]
  | caseLabel label statement ih =>
    rw [resolveSwitchStatement, if_pos nested, ih resolver nested]
  | defaultLabel node statement ih =>
    rw [resolveSwitchStatement, if_pos nested, ih resolver nested]
  | switch statement ih =>
    rw [resolveSwitchStatement, ih resolver.enterSwitch (Nat.lt_succ_of_lt nested)]
    simp [enterSwitch, leaveSwitch]

/-- At the level of its switch the visitor adds the labels of the statement. -/
theorem Resolved.visit {resolver : SwitchResolver} {labels : List CaseLabel}
    {defaults : List Nat} (statement : SwitchedStatement)
    (resolved : Resolved resolver labels defaults) (level : resolver.switchLevel = 1) :
    Resolved (resolveSwitchStatement statement resolver) (labels ++ statement.cases)
        (defaults ++ statement.defaults) ∧
      (resolveSwitchStatement statement resolver).switchLevel = 1 := by
  induction statement generalizing resolver labels defaults with
  | leaf =>
    simp only [resolveSwitchStatement, SwitchedStatement.cases, SwitchedStatement.defaults,
      List.append_nil]
    exact ⟨resolved, level⟩
  | children first rest firstIh restIh =>
    obtain ⟨firstResolved, firstLevel⟩ := firstIh resolved level
    have both := restIh firstResolved firstLevel
    simp only [List.append_assoc] at both
    exact both
  | caseLabel label statement ih =>
    rw [resolveSwitchStatement, if_neg (by omega)]
    have rest := ih (resolved.addCase label) level
    simp only [List.append_assoc, List.singleton_append] at rest
    exact rest
  | defaultLabel node statement ih =>
    rw [resolveSwitchStatement, if_neg (by omega)]
    have rest := ih (resolved.addDefault node) level
    simp only [List.append_assoc, List.singleton_append] at rest
    exact rest
  | switch statement _ =>
    have nested : 1 < resolver.enterSwitch.switchLevel := by
      simp [enterSwitch, level]
    rw [resolveSwitchStatement, resolveSwitchStatement_nested _ _ nested]
    simp only [SwitchedStatement.cases, SwitchedStatement.defaults, List.append_nil,
      enterSwitch, leaveSwitch, Nat.add_sub_cancel]
    exact ⟨resolved, level⟩

namespace SwitchStatement

variable [Compiler]

/-- The walk over a switch finds its labels. -/
theorem resolved (statement : SwitchStatement) :
    Resolved statement.resolver statement.body.cases statement.body.defaults := by
  have visited := (Resolved.initial.of_fields 1).visit statement.body rfl
  exact visited.1.of_fields _

@[simp] theorem resolver_cases (statement : SwitchStatement) :
    statement.resolver.cases = statement.body.cases :=
  statement.resolved.cases

/-! ## The control type -/

theorem format_bits_le (statement : SwitchStatement) :
    statement.format.bits ≤ statement.exprType.size * 8 ∧ statement.exprType.size ≤ 8 := by
  have formatEq := statement.hasFormat
  have wellFormed := statement.wellFormed
  rw [TypeRecord.intFormat?] at formatEq
  split_ifs at formatEq with valid
  have fits := valid.2.2
  rw [Option.some.injEq] at formatEq
  rw [← formatEq]
  simp only [TypeRecord.valueBits] at fits ⊢
  split_ifs at fits ⊢ with bitInt
  · exact (wellFormed bitInt).2
  · omega

theorem format_isUnsigned (statement : SwitchStatement) :
    statement.format.isUnsigned = statement.exprType.isUnsigned := by
  have formatEq := statement.hasFormat
  rw [TypeRecord.intFormat?] at formatEq
  split_ifs at formatEq
  rw [Option.some.injEq] at formatEq
  rw [← formatEq]

variable [TypeSizes]

omit [Compiler] in
/-- The control type has room for the controlling expression. -/
theorem size_le_determineControlType (exprType : TypeRecord) (cases : List CaseLabel)
    (small : exprType.size ≤ 8) : exprType.size ≤ (determineControlType exprType cases).size := by
  have longLongSize_eq := TypeSizes.longLongSize_eq
  simp only [determineControlType]
  generalize List.foldl max 0 _ = widest
  split_ifs <;> simp only [PromotedType.size] <;> omega

/-- The labels are compared in the type of the expression or in a promoted type of
the signedness chosen for it. -/
private theorem controlFormat_of_convertType (statement : SwitchStatement)
    (promoted : PromotedType) (isUnsigned : Bool) (converted : statement.controlType =
      statement.exprType.convertType (promoted.record isUnsigned)) :
    statement.controlFormat = statement.format ∨
      statement.controlFormat = promoted.format isUnsigned := by
  rcases statement.exprType.convertType_eq (promoted.record isUnsigned) with unchanged | changed
  · left
    rw [controlFormat, converted, unchanged, wordFormat, Option.bind_some,
      statement.hasFormat, Option.getD_some]
  · right
    rw [controlFormat, converted, changed, wordFormat, Option.bind_some,
      PromotedType.intFormat?_record, Option.getD_some]

/-- The labels are compared in the type of the expression or in a promoted type
that has room for it. -/
theorem controlFormat_cases (statement : SwitchStatement) :
    statement.controlFormat = statement.format ∨
      ∃ (type : PromotedType) (isUnsigned : Bool),
        statement.controlFormat = type.format isUnsigned ∧
        statement.format.bits ≤ type.size * 8 ∧
        (isUnsigned = statement.format.isUnsigned ∨
          isUnsigned = allCasesPositive statement.body.cases) := by
  obtain ⟨bitsLe, sizeLe⟩ := statement.format_bits_le
  have room := size_le_determineControlType statement.exprType statement.body.cases sizeLe
  have fits : statement.format.bits ≤
      (determineControlType statement.exprType statement.body.cases).size * 8 := by omega
  by_cases enumeration : statement.exprType.isEnum = true
  · apply (statement.controlFormat_of_convertType _ _ ?_).imp_right
    · intro converted
      exact ⟨_, allCasesPositive statement.body.cases, converted, fits, .inr rfl⟩
    · simp [controlType, controlExprType, enumeration]
  · apply (statement.controlFormat_of_convertType _ _ ?_).imp_right
    · intro converted
      exact ⟨_, statement.exprType.isUnsigned, converted, fits,
        .inl statement.format_isUnsigned.symm⟩
    · simp [controlType, controlExprType, enumeration]

theorem hasControlFormat (statement : SwitchStatement) :
    statement.controlType.intFormat? = some statement.controlFormat := by
  have isSome : ∃ format, statement.controlType.intFormat? = some format := by
    rw [controlType, controlExprType]
    split_ifs
    all_goals
      rcases statement.exprType.convertType_eq _ with unchanged | changed
      · exact ⟨_, by rw [unchanged, statement.hasFormat]⟩
      · exact ⟨_, by rw [changed, PromotedType.intFormat?_record]⟩
  obtain ⟨format, formatEq⟩ := isSome
  rw [controlFormat, wordFormat, Option.bind_some, formatEq, Option.getD_some]

theorem format_bits_le_controlFormat (statement : SwitchStatement) :
    statement.format.bits ≤ statement.controlFormat.bits := by
  rcases statement.controlFormat_cases with same | ⟨type, isUnsigned, promoted, bitsLe, -⟩
  · rw [same]
  · rw [promoted]
    exact bitsLe

omit [Compiler] [TypeSizes] in
/-- A case value of a signed format without its sign bit is canonical in every wider
format. -/
private theorem canonical_of_positive {narrow wide : IntFormat} {value : BitVec 64}
    (canonical : narrow.Canonical value) (signed : narrow.isUnsigned = false)
    (fewer : narrow.bits ≤ wide.bits) (positive : value.slt 0 = false) : wide.Canonical value := by
  apply IntFormat.canonical_of_toNat_lt
  have value_eq := canonical.toInt_eq signed
  have bound := BitVec.toInt_lt (x := narrow.read value)
  have nonneg : 0 ≤ value.toInt := by
    simpa [BitVec.slt] using positive
  have natural : (value.toNat : ℤ) = value.toInt := by
    rw [BitVec.toInt_eq_toNat_of_msb]
    rw [BitVec.msb_eq_toInt]
    simpa using nonneg
  have power : 2 ^ (narrow.bits - 1) ≤ 2 ^ (wide.bits - 1) :=
    Nat.pow_le_pow_right (by decide) (by omega)
  have power' : ((2 ^ (narrow.bits - 1) : ℕ) : ℤ) ≤ ((2 ^ (wide.bits - 1) : ℕ) : ℤ) := by
    exact_mod_cast power
  push_cast at power'
  have below : (value.toNat : ℤ) < ((2 ^ (wide.bits - 1) : ℕ) : ℤ) := by
    push_cast
    omega
  exact_mod_cast below

variable {label : CaseLabel}

/-- Every case value is in canonical form for the control type. -/
theorem case_controlCanonical (statement : SwitchStatement)
    (labelMem : label ∈ statement.body.cases) : statement.controlFormat.Canonical label.value := by
  have canonical := statement.caseCanonical label labelMem
  rcases statement.controlFormat_cases with same | ⟨type, isUnsigned, promoted, bitsLe, sign⟩
  · rw [same]
    exact canonical
  rw [promoted]
  by_cases sameSign : isUnsigned = statement.format.isUnsigned
  · exact canonical.widen bitsLe sameSign.symm
  have positive := sign.resolve_left sameSign
  cases signedness : statement.format.isUnsigned with
  | false =>
    rw [signedness, Bool.not_eq_false] at sameSign
    rw [sameSign, eq_comm, allCasesPositive, Bool.not_eq_true', List.any_eq_false] at positive
    have labelPositive := positive label labelMem
    rw [Bool.not_eq_true] at labelPositive
    exact canonical_of_positive canonical signedness bitsLe labelPositive
  | true =>
    rw [signedness, Bool.not_eq_true] at sameSign
    rw [sameSign, eq_comm, allCasesPositive, Bool.not_eq_false', List.any_eq_true] at positive
    obtain ⟨negative, negativeMem, isNegative⟩ := positive
    have wide : ¬ statement.format.bits < 64 := by
      intro narrow
      have clear := (statement.caseCanonical negative negativeMem).msb_eq_false signedness narrow
      rw [BitVec.msb_eq_toInt] at clear
      simp only [BitVec.slt, decide_eq_true_eq, decide_eq_false_iff_not] at isNegative clear
      exact clear isNegative
    have fits := (type.format isUnsigned).fits
    simp only [PromotedType.format] at fits
    apply IntFormat.canonical_of_bits_eq
    simp only [PromotedType.format]
    omega

/-- A value is converted to a case value only when it is that value. -/
theorem convert_eq_case_iff (statement : SwitchStatement) {value : BitVec 64}
    (canonical : statement.format.Canonical value) (labelMem : label ∈ statement.body.cases) :
    statement.convert value = label.value ↔ value = label.value := by
  have labelCanonical := statement.case_controlCanonical labelMem
  constructor
  · intro converted
    have agree : statement.controlFormat.read value =
        statement.controlFormat.read label.value := by
      rw [← converted, convert, IntFormat.read_canonicalize]
    rw [canonical.eq_iff (statement.caseCanonical label labelMem)]
    exact IntFormat.read_eq_of_read_eq statement.format_bits_le_controlFormat agree
  · rintro rfl
    exact labelCanonical

end SwitchStatement

end DaveCC.Frontend
