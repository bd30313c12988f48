import DaveCC.Backend.ExceptionTableGroups
import Mathlib.Algebra.BigOperators.Group.List.Lemmas

/-!
# Exception tables and the ranges they are made from

When a table decodes to the call sites of its ranges, each with its own actions in their order:
exactly where no array overflows, the ranges of a call site have the actions that follow its
first range, and the distances between the labels can be written.
-/

namespace DaveCC.Backend

open DaveCC.Arith DaveCC.Container CallSiteKey

/-- The types of the ranges that catch. -/
def neededTypes (ranges : List DaveEHLSDARange) : List (Option String) :=
  (ranges.filter (!·.isCleanup)).map (·.catchTypeinfo)

/-- Both loops over the types do the same. -/
theorem CollectedTypes.print_eq_emit (types : CollectedTypes) (range : DaveEHLSDARange) :
    types.print range = types.emit range := by
  rw [CollectedTypes.print, CollectedTypes.emit]
  congr 1
  congr 1
  by_cases known : findTypeIndex types.typeSymbols range.catchTypeinfo = 0
  · by_cases full : types.typeSymbols.length ≥ typeCapacity
    · rw [if_neg (not_not_intro known), if_pos full, if_neg fun room => Nat.not_lt.mpr full room.2]
    · rw [if_neg (not_not_intro known), if_neg full, if_pos ⟨known, Nat.lt_of_not_le full⟩]
  · rw [if_pos known, if_neg fun room => known room.1]

theorem printedTypes_eq (ranges : List DaveEHLSDARange) :
    printedTypes ranges = emittedTypes ranges := by
  rw [printedTypes, emittedTypes, funext fun types => funext fun range =>
    CollectedTypes.print_eq_emit types range]

variable {typeSymbols : List (Option String)}

theorem findTypeIndex_eq_zero {symbol : Option String} :
    findTypeIndex typeSymbols symbol = 0 ↔ symbol ∉ typeSymbols := by
  rw [findTypeIndex]
  cases found : typeSymbols.findIdx? (· == symbol) with
  | none =>
    have absent := List.findIdx?_eq_none_iff.mp found
    simp only [true_iff]
    intro member
    exact Bool.eq_false_iff.mp (absent symbol member) (beq_self_eq_true symbol)
  | some index =>
    obtain ⟨inside, same, -⟩ := List.findIdx?_eq_some_iff_getElem.mp found
    simp only [Nat.succ_ne_zero, false_iff, not_not]
    rw [← eq_of_beq same]
    exact List.getElem_mem inside

structure TypesCollected (ranges : List DaveEHLSDARange) (types : CollectedTypes) : Prop where
  distinct : types.typeSymbols.Nodup
  needed : ∀ type ∈ types.typeSymbols, type ∈ neededTypes ranges ∧ type ≠ none
  fit : types.typeSymbols.length ≤ typeCapacity
  catchAll : types.hasCatchAll = true ↔ none ∈ neededTypes ranges
  complete : types.typeSymbols.length = typeCapacity ∨
    ∀ type ∈ neededTypes ranges, type ≠ none → type ∈ types.typeSymbols

/-- One more range keeps what holds of the types. -/
theorem TypesCollected.emit {ranges : List DaveEHLSDARange} {types : CollectedTypes}
    (collected : TypesCollected ranges types) (range : DaveEHLSDARange) :
    TypesCollected (ranges ++ [range]) (types.emit range) := by
  rw [CollectedTypes.emit]
  by_cases cleanup : range.isCleanup = true
  · have same : neededTypes (ranges ++ [range]) = neededTypes ranges := by
      simp [neededTypes, List.filter_append, cleanup]
    rw [if_pos cleanup]
    exact ⟨collected.distinct, same ▸ collected.needed, collected.fit, same ▸ collected.catchAll,
      same ▸ collected.complete⟩
  have grows : neededTypes (ranges ++ [range]) = neededTypes ranges ++ [range.catchTypeinfo] := by
    simp [neededTypes, List.filter_append, cleanup]
  have still : ∀ type ∈ types.typeSymbols, type ∈ neededTypes (ranges ++ [range]) ∧
      type ≠ none := by
    intro type member
    rw [grows]
    exact ⟨List.mem_append_left _ (collected.needed type member).1,
      (collected.needed type member).2⟩
  rw [if_neg cleanup]
  by_cases catchAll : range.catchTypeinfo = none
  · rw [if_pos catchAll]
    refine ⟨collected.distinct, still, collected.fit, ?_, collected.complete.imp_right ?_⟩
    · rw [grows, catchAll]
      simp
    · intro complete type member typed
      rw [grows, catchAll] at member
      rcases List.mem_append.mp member with old | new
      · exact complete type old typed
      · exact absurd (List.mem_singleton.mp new) typed
  have catchAlls : types.hasCatchAll = true ↔ none ∈ neededTypes (ranges ++ [range]) := by
    rw [collected.catchAll, grows, List.mem_append, List.mem_singleton]
    exact ⟨.inl, fun found => found.resolve_right fun same => catchAll same.symm⟩
  rw [if_neg catchAll]
  by_cases room : findTypeIndex types.typeSymbols range.catchTypeinfo = 0 ∧
      types.typeSymbols.length < typeCapacity
  · have fresh := findTypeIndex_eq_zero.mp room.1
    rw [if_pos room]
    refine ⟨?_, ?_, ?_, catchAlls, collected.complete.imp ?_ ?_⟩
    · rw [List.nodup_append]
      refine ⟨collected.distinct, List.nodup_singleton _, ?_⟩
      intro type member other new same
      rw [List.mem_singleton.mp new] at same
      exact fresh (same ▸ member)
    · intro type member
      rcases List.mem_append.mp member with old | new
      · exact still type old
      · rw [List.mem_singleton.mp new, grows]
        exact ⟨List.mem_append_right _ List.mem_cons_self, catchAll⟩
    · rw [List.length_append, List.length_singleton]
      exact room.2
    · intro full
      exact absurd full (Nat.ne_of_lt room.2)
    · intro complete type member typed
      rw [grows] at member
      rcases List.mem_append.mp member with old | new
      · exact List.mem_append_left _ (complete type old typed)
      · exact List.mem_append_right _ new
  · rw [if_neg room]
    refine ⟨collected.distinct, still, collected.fit, catchAlls, ?_⟩
    by_cases full : types.typeSymbols.length = typeCapacity
    · exact .inl full
    have known : range.catchTypeinfo ∈ types.typeSymbols := by
      by_contra fresh
      exact room ⟨findTypeIndex_eq_zero.mpr fresh, Nat.lt_of_le_of_ne collected.fit full⟩
    refine .inr ?_
    intro type member typed
    rw [grows] at member
    rcases List.mem_append.mp member with old | new
    · exact (collected.complete.resolve_left full) type old typed
    · rw [List.mem_singleton.mp new]
      exact known

theorem typesCollected_foldl (ranges : List DaveEHLSDARange) :
    TypesCollected ranges (ranges.foldl CollectedTypes.emit ⟨[], false⟩) := by
  induction ranges using List.reverseRecOn with
  | nil =>
    refine ⟨List.nodup_nil, fun _ absent => absurd absent List.not_mem_nil, Nat.zero_le _, ?_,
      .inr fun _ absent => absurd absent List.not_mem_nil⟩
    simp [neededTypes]
  | append_singleton ranges range ih =>
    rw [List.foldl_append]
    exact ih.emit range

/-- The type table has at most so many entries. -/
theorem length_emittedTypes_le (ranges : List DaveEHLSDARange) :
    (emittedTypes ranges).length ≤ typeCapacity := by
  have fit := (typesCollected_foldl ranges).fit
  rw [emittedTypes, CollectedTypes.withCatchAll]
  split
  · next room =>
      rw [List.length_append, List.length_singleton]
      exact room.2
  · exact fit

/-- All types are in the table where they fit. -/
theorem mem_emittedTypes {ranges : List DaveEHLSDARange}
    (fits : (neededTypes ranges).dedup.length ≤ typeCapacity) :
    ∀ type ∈ neededTypes ranges, type ∈ emittedTypes ranges := by
  have collected := typesCollected_foldl ranges
  have typed : none ∉ (ranges.foldl CollectedTypes.emit ⟨[], false⟩).typeSymbols :=
    fun member => (collected.needed none member).2 rfl
  intro type member
  rw [emittedTypes, CollectedTypes.withCatchAll]
  by_cases catchAll : none ∈ neededTypes ranges
  · have distinct := List.nodup_cons.mpr ⟨typed, collected.distinct⟩
    have counted := @length_le_dedup _ _ _ (neededTypes ranges) distinct (by
      intro other inside
      rcases List.mem_cons.mp inside with rfl | inside
      · exact catchAll
      · exact (collected.needed other inside).1)
    have room := Nat.lt_of_succ_le (Nat.le_trans counted fits)
    rw [if_pos ⟨collected.catchAll.mpr catchAll, room⟩]
    by_cases null : type = none
    · rw [null]
      exact List.mem_append_right _ List.mem_cons_self
    · exact List.mem_append_left _
        ((collected.complete.resolve_left (Nat.ne_of_lt room)) type member null)
  · have null : type ≠ none := fun same => catchAll (same ▸ member)
    rw [if_neg fun room => catchAll (collected.catchAll.mp room.1)]
    rcases collected.complete with full | complete
    · have needed : (ranges.foldl CollectedTypes.emit ⟨[], false⟩).typeSymbols ⊆
          (neededTypes ranges).dedup :=
        fun other inside => List.mem_dedup.mpr (collected.needed other inside).1
      have perm := (List.subperm_of_subset collected.distinct needed).perm_of_length_le
        (by rw [full]; exact fits)
      exact perm.mem_iff.mpr (List.mem_dedup.mpr member)
    · exact complete type member null

/-- What a range does when it is chosen. -/
def DaveEHLSDARange.action (range : DaveEHLSDARange) : LSDAAction :=
  if range.isCleanup then .cleanup else .catches range.catchTypeinfo

/-- The filter of a range means what the range does, if its type is in the table. -/
theorem meaningOf_typeFilter {range : DaveEHLSDARange}
    (known : range.isCleanup = false → range.catchTypeinfo ∈ typeSymbols) :
    meaningOf typeSymbols (range.typeFilter typeSymbols) = range.action := by
  rw [DaveEHLSDARange.typeFilter, DaveEHLSDARange.action, meaningOf]
  cases cleanup : range.isCleanup with
  | true => rfl
  | false =>
    have member := known cleanup
    have found : findTypeIndex typeSymbols range.catchTypeinfo ≠ 0 :=
      fun zero => findTypeIndex_eq_zero.mp zero member
    have selected : typeSymbols.getD (findTypeIndex typeSymbols range.catchTypeinfo - 1) none =
        range.catchTypeinfo := by
      rw [findTypeIndex] at found ⊢
      cases place : typeSymbols.findIdx? (· == range.catchTypeinfo) with
      | none =>
        rw [place] at found
        exact absurd rfl found
      | some index =>
        obtain ⟨inside, same, -⟩ := List.findIdx?_eq_some_iff_getElem.mp place
        rw [Nat.add_sub_cancel, List.getD_eq_getElem?_getD, List.getElem?_eq_getElem inside]
        exact eq_of_beq same
    rw [if_neg Bool.false_ne_true, if_neg Bool.false_ne_true, if_neg (by omega),
      Int.toNat_natCast, selected]

variable {filter : ℤ}

/-- A filter that means a type has it from the table. -/
theorem mem_of_meaningOf {type : Option String} (nonnegative : 0 ≤ filter)
    (covered : filter ≤ typeSymbols.length) (means : meaningOf typeSymbols filter = .catches type) :
    type ∈ typeSymbols := by
  rw [meaningOf] at means
  split at means
  · cases means
  · next positive =>
      have inside : filter.toNat - 1 < typeSymbols.length := by omega
      rw [List.getD_eq_getElem?_getD, List.getElem?_eq_getElem inside, Option.getD_some] at means
      cases means
      exact List.getElem_mem inside

/-! ## Order -/

/-- The order of the call sites in a table. -/
def CallSiteKey.Less (first second : CallSiteKey) : Prop :=
  first.tryStartId < second.tryStartId ∨ first.tryStartId = second.tryStartId ∧
    (first.tryEndId < second.tryEndId ∨ first.tryEndId = second.tryEndId ∧
      first.landingPadId < second.landingPadId)

theorem callSiteGroupLess_iff {first second : LSDACallSiteGroup} :
    callSiteGroupLess first second = true ↔ first.key.Less second.key := by
  rw [callSiteGroupLess, CallSiteKey.Less]
  split
  · next different => simp [different]
  · next same =>
      simp only [ne_eq, not_not] at same
      split
      · next different => simp [same, different]
      · next sameEnd =>
          simp only [ne_eq, not_not] at sameEnd
          simp [same, sameEnd]

variable {first second : CallSiteKey}

theorem CallSiteKey.Less.trans {third : CallSiteKey} (before : first.Less second)
    (after : second.Less third) : first.Less third := by
  unfold CallSiteKey.Less at *
  omega

theorem CallSiteKey.Less.asymm (before : first.Less second) : ¬ second.Less first := by
  unfold CallSiteKey.Less at *
  omega

/-- The order is total. -/
theorem CallSiteKey.Less.of_not (different : first ≠ second) (other : ¬ second.Less first) :
    first.Less second := by
  obtain ⟨firstStart, firstEnd, firstPad⟩ := first
  obtain ⟨secondStart, secondEnd, secondPad⟩ := second
  simp only [CallSiteKey.Less, ne_eq, CallSiteKey.mk.injEq] at *
  omega

/-- The groups of ranges in the order of the table. -/
def sortedGroups (ranges : List DaveEHLSDARange) : List LSDACallSiteGroup :=
  exchangeSort callSiteGroupLess
    (ranges.foldl (CallSites.add (emittedTypes ranges)) ⟨[], []⟩).groups

/-- The actions of ranges in the order of the ranges. -/
def collectedActions (ranges : List DaveEHLSDARange) : List ℤ :=
  (ranges.foldl (CallSites.add (emittedTypes ranges)) ⟨[], []⟩).actions

/-- The groups are sorted by their call sites. -/
theorem sortedGroups_sorts (ranges : List DaveEHLSDARange) :
    (sortedGroups ranges).Perm
        (ranges.foldl (CallSites.add (emittedTypes ranges)) ⟨[], []⟩).groups ∧
      ((sortedGroups ranges).map (·.key)).Pairwise CallSiteKey.Less := by
  have sorts : (sortedGroups ranges).Perm
        (ranges.foldl (CallSites.add (emittedTypes ranges)) ⟨[], []⟩).groups ∧
      (sortedGroups ranges).Pairwise fun first second =>
        callSiteGroupLess second first = false := by
    apply exchangeSort_sorts
    · intro first second third before after
      rw [callSiteGroupLess_iff] at *
      exact before.trans after
    · intro first second before
      rw [Bool.eq_false_iff, ne_eq, callSiteGroupLess_iff] at *
      exact CallSiteKey.Less.asymm before
  have distinct := ((sorts.1.map (·.key)).nodup_iff).mpr
    (collected_foldl (emittedTypes ranges) ranges).distinct
  refine ⟨sorts.1, ?_⟩
  rw [List.pairwise_map]
  have different : (sortedGroups ranges).Pairwise fun first second => first.key ≠ second.key :=
    List.pairwise_map.mp distinct
  apply (sorts.2.and different).imp
  intro first second ordered
  apply CallSiteKey.Less.of_not ordered.2
  intro other
  exact absurd (callSiteGroupLess_iff.mpr other) (Bool.eq_false_iff.mp ordered.1)

/-- What holds of the groups of ranges holds of the sorted ones. -/
theorem collected_sorted (ranges : List DaveEHLSDARange) :
    Collected (emittedTypes ranges) ranges ⟨sortedGroups ranges, collectedActions ranges⟩ := by
  have collected := collected_foldl (emittedTypes ranges) ranges
  have perm := (sortedGroups_sorts ranges).1
  exact
    { distinct := ((perm.map (·.key)).nodup_iff).mpr collected.distinct
      named := fun group member => collected.named group (perm.mem_iff.mp member)
      positive := fun group member => collected.positive group (perm.mem_iff.mp member)
      within := fun group member => collected.within group (perm.mem_iff.mp member)
      counted := (perm.map (·.actionCount)).sum_eq.trans collected.counted
      actionsFit := collected.actionsFit
      groupsFit := perm.length_eq ▸ collected.groupsFit
      covered := collected.covered }

theorem complete_sorted {ranges : List DaveEHLSDARange} (room : ranges.length ≤ actionCapacity)
    (groupRoom : (ranges.map (·.key)).dedup.length ≤ groupCapacity) :
    Complete (emittedTypes ranges) ranges ⟨sortedGroups ranges, collectedActions ranges⟩ := by
  have complete := complete_foldl (emittedTypes ranges) ranges room groupRoom
  have perm := (sortedGroups_sorts ranges).1
  exact
    { actions := complete.actions
      grouped := fun range member => by
        obtain ⟨group, inGroups, same⟩ := complete.grouped range member
        exact ⟨group, perm.mem_iff.mpr inGroups, same⟩
      first := fun group member => complete.first group (perm.mem_iff.mp member)
      count := fun group member => complete.count group (perm.mem_iff.mp member) }

/-- The rows of a table, with one of the ways to write distances. -/
def tableRows (value : ℤ → ℤ → BitVec 64) (ranges : List DaveEHLSDARange) : List LSDARow :=
  (sortedGroups ranges).map (·.row value (collectedActions ranges))

variable {group : LSDACallSiteGroup}

/-- The actions of a group are from the array. -/
theorem mem_actionsIn {sites : CallSites} {ranges : List DaveEHLSDARange}
    (collected : Collected typeSymbols ranges sites) (member : group ∈ sites.groups)
    (inGroup : filter ∈ group.actionsIn sites.actions) : filter ∈ sites.actions := by
  obtain ⟨index, inRange, rfl⟩ := List.mem_map.mp inGroup
  have within := collected.within group member
  have inside : group.firstAction + index < sites.actions.length := by
    rw [List.mem_range] at inRange
    omega
  rw [List.getD_eq_getElem?_getD, List.getElem?_eq_getElem inside]
  exact List.getElem_mem inside

theorem readable_tableRows (value : ℤ → ℤ → BitVec 64) (ranges : List DaveEHLSDARange) :
    ∀ row ∈ tableRows value ranges, row.Readable (emittedTypes ranges) := by
  have collected := collected_sorted ranges
  intro row member
  obtain ⟨group, inGroups, rfl⟩ := List.mem_map.mp member
  refine ⟨BitVec.isLt _, BitVec.isLt _, BitVec.isLt _, ?_, ?_⟩
  · intro empty
    have count := length_actionsIn group (collectedActions ranges)
    have positive := collected.positive group inGroups
    have none : group.actionsIn (collectedActions ranges) = [] := empty
    rw [none, List.length_nil] at count
    omega
  · intro filter inRow
    exact collected.covered filter (mem_actionsIn collected inGroups inRow)

theorem length_uleb128_le (room value : Nat) : (uleb128 room value).length ≤ room := by
  induction room generalizing value with
  | zero => exact Nat.le_refl 0
  | succ room ih =>
    rw [uleb128]
    split
    · exact Nat.le_add_left 1 room
    · exact Nat.succ_le_succ (ih _)

theorem sleb128Size_le (room : Nat) (value : ℤ) : sleb128Size room value ≤ room := by
  induction room generalizing value with
  | zero => exact Nat.le_refl 0
  | succ room ih =>
    rw [sleb128Size]
    split
    · exact Nat.le_add_left 1 room
    · exact Nat.succ_le_succ (ih _)

theorem length_chainCells_le (filters : List ℤ) :
    (chainCells filters).length ≤ 11 * filters.length := by
  rw [length_chainCells]
  induction filters with
  | nil => exact Nat.le_refl 0
  | cons filter filters ih =>
    have here := sleb128Size_le 10 filter
    rw [List.map_cons, List.sum_cons, List.length_cons, recordSize]
    omega

theorem length_chainsCells_le (rows : List LSDARow) :
    (chainsCells rows).length ≤ 11 * (rows.map (·.filters.length)).sum := by
  induction rows with
  | nil => exact Nat.le_refl 0
  | cons row rows ih =>
    have here := length_chainCells_le row.filters
    have unfolded : chainsCells (row :: rows) = chainCells row.filters ++ chainsCells rows := rfl
    rw [unfolded, List.length_append, List.map_cons, List.sum_cons]
    omega

theorem length_sitesCells_le (first : Nat) (rows : List LSDARow) :
    (sitesCells first rows).length ≤ 40 * rows.length := by
  induction rows generalizing first with
  | nil => exact Nat.le_refl 0
  | cons row rows ih =>
    have rest := ih (first + (chainCells row.filters).length)
    have start := length_uleb128_le 10 row.start
    have length := length_uleb128_le 10 row.length
    have landingPad := length_uleb128_le 10 row.landingPad
    have action := length_uleb128_le 10 (first + 1)
    simp only [sitesCells, siteCells, List.length_append, length_bytesOf, List.length_cons]
    omega

/-- The arrays bound the size of a table. -/
theorem small_tableRows (value : ℤ → ℤ → BitVec 64) (ranges : List DaveEHLSDARange) :
    (bodyCells (emittedTypes ranges) (tableRows value ranges)).length < 2 ^ 63 := by
  have collected := collected_sorted ranges
  have groupsFit : (tableRows value ranges).length ≤ 64 := by
    rw [tableRows, List.length_map]
    exact collected.groupsFit
  have actionsFit : ((tableRows value ranges).map (·.filters.length)).sum ≤ 128 := by
    have counts : (tableRows value ranges).map (·.filters.length) =
        (sortedGroups ranges).map (·.actionCount) := by
      rw [tableRows, List.map_map]
      apply List.map_congr_left
      intro group _
      exact length_actionsIn group _
    rw [counts]
    exact collected.counted ▸ collected.actionsFit
  have typesFit : (emittedTypes ranges).length ≤ 64 := length_emittedTypes_le ranges
  have sites := length_sitesCells_le 0 (tableRows value ranges)
  have chains := length_chainsCells_le (tableRows value ranges)
  have header := length_uleb128_le 10 (sitesCells 0 (tableRows value ranges)).length
  simp only [bodyCells, List.length_cons, List.length_append, length_bytesOf, length_typeTableCells]
  omega

section Assembled

variable {offsetOf : ℤ → BitVec 64} {rejectsNegative : Bool} {position : LSDALabel → Nat}
  {ranges : List DaveEHLSDARange} {start : Nat} {cells : List LSDACell}

/-- What the printed directives of a table assemble to. -/
theorem assemble_printed (nonempty : ranges ≠ []) :
    assembleFrom offsetOf rejectsNegative position start (daveEHPrintExceptTable ranges) =
        some cells ↔
      TablePlaced position (emittedTypes ranges) (tableRows (printedValue offsetOf) ranges) start ∧
        (∀ group ∈ sortedGroups ranges,
          group.key.Accepted rejectsNegative (printedValue offsetOf)) ∧
        cells = paddedTable (emittedTypes ranges) (tableRows (printedValue offsetOf) ranges)
          start := by
  have directives : daveEHPrintExceptTable ranges = tableDirectives printOffsetFromFunc
      (emittedTypes ranges) (orderedSites (sortedGroups ranges) (collectedActions ranges))
      (chainOffsets 0 (tableRows (printedValue offsetOf) ranges)) := by
    rw [daveEHPrintExceptTable, if_neg (fun empty => nonempty (List.length_eq_zero_iff.mp empty)),
      printedTypes_eq, tableRows, ← printedOffsets_eq]
    rfl
  rw [directives]
  exact assemble_table printOffsetFromFunc_writes (small_tableRows _ ranges)

/-- What the operations on a module put into its section. -/
theorem assemble_emitted (nonempty : ranges ≠ []) :
    assembleFrom offsetOf rejectsNegative position start (daveEHEmitGCCExceptTable ranges) =
        some cells ↔
      TablePlaced position (emittedTypes ranges) (tableRows (emittedValue offsetOf) ranges) start ∧
        (∀ group ∈ sortedGroups ranges,
          group.key.Accepted rejectsNegative (emittedValue offsetOf)) ∧
        cells = paddedTable (emittedTypes ranges) (tableRows (emittedValue offsetOf) ranges)
          start := by
  have directives : daveEHEmitGCCExceptTable ranges = tableDirectives offsetLabels
      (emittedTypes ranges) (orderedSites (sortedGroups ranges) (collectedActions ranges))
      (chainOffsets 0 (tableRows (emittedValue offsetOf) ranges)) := by
    rw [daveEHEmitGCCExceptTable, if_neg (fun empty => nonempty (List.length_eq_zero_iff.mp empty)),
      tableRows, ← emittedOffsets_eq]
    rfl
  rw [directives]
  exact assemble_table offsetLabels_writes (small_tableRows _ ranges)

/-- A printed table that is assembled decodes to its rows. -/
theorem decode_printed (nonempty : ranges ≠ [])
    (assembled : assembleFrom offsetOf rejectsNegative position start (daveEHPrintExceptTable
      ranges) = some cells) :
    decodeLSDA (cells.drop (position .lsda - start)) =
      some ((tableRows (printedValue offsetOf) ranges).map
        (LSDARow.site (emittedTypes ranges))) := by
  obtain ⟨placed, -, rfl⟩ := (assemble_printed nonempty).mp assembled
  rw [placed.lsda, Nat.add_sub_cancel_left, drop_paddedTable]
  exact decode_table (readable_tableRows _ ranges) (small_tableRows _ ranges) _

end Assembled

/-- The ranges of a call site, in their order. -/
def rangesOf (ranges : List DaveEHLSDARange) (key : CallSiteKey) : List DaveEHLSDARange :=
  ranges.filter (·.key == key)

/-- A call site with its own landing pad and the actions of its own ranges. -/
def expectedSite (offsetOf : ℤ → BitVec 64) (ranges : List DaveEHLSDARange) (key : CallSiteKey) :
    LSDACallSite :=
  { start := (offsetOf key.tryStartId).toNat
    length := (offsetOf key.tryEndId - offsetOf key.tryStartId).toNat
    landingPad := (offsetOf key.landingPadId).toNat
    actions := (rangesOf ranges key).map (·.action) }

/-- The call sites of ranges in the order of a table. -/
structure IsCallSites (ranges : List DaveEHLSDARange) (keys : List CallSiteKey) : Prop where
  ordered : keys.Pairwise CallSiteKey.Less
  mem_iff : ∀ key, key ∈ keys ↔ ∃ range ∈ ranges, range.key = key

/-- From any offset of its section on, the printed table is assembled, decodes to the call
sites of the ranges, and is what the module gets. -/
def DecodesToRanges (offsetOf : ℤ → BitVec 64) (ranges : List DaveEHLSDARange) : Prop :=
  ∀ start, ∃ position cells keys,
    assembleFrom offsetOf true position start (daveEHPrintExceptTable ranges) = some cells ∧
    IsCallSites ranges keys ∧
    decodeLSDA (cells.drop (position .lsda - start)) =
      some (keys.map (expectedSite offsetOf ranges)) ∧
    ∃ emitted, assembleFrom offsetOf false emitted start (daveEHEmitGCCExceptTable ranges) =
      some cells

/-- The distances of a call site can be written: none is negative, and the number that stands
for the function is used for an instruction only where the function starts with it. -/
structure CallSiteKey.Placed (offsetOf : ℤ → BitVec 64) (key : CallSiteKey) : Prop where
  start : (offsetOf key.tryStartId).msb = false
  length : (offsetOf key.tryEndId - offsetOf key.tryStartId).msb = false
  landingPad : (offsetOf key.landingPadId).msb = false
  zeroStart : key.tryStartId = 0 → offsetOf 0 = 0
  zeroLandingPad : key.landingPadId = 0 → offsetOf 0 = 0

/-- Nothing overflows, and from the first range of each call site on there are as many ranges
with the actions of the call site's own, in their order. -/
structure Representable (offsetOf : ℤ → BitVec 64) (ranges : List DaveEHLSDARange) : Prop where
  actions : ranges.length ≤ actionCapacity
  groups : (ranges.map (·.key)).dedup.length ≤ groupCapacity
  types : (neededTypes ranges).dedup.length ≤ typeCapacity
  contiguous : ∀ range ∈ ranges,
    ((ranges.drop ((ranges.map (·.key)).idxOf range.key)).take
        (rangesOf ranges range.key).length).map (·.action) =
      (rangesOf ranges range.key).map (·.action)
  placed : ∀ range ∈ ranges, range.key.Placed offsetOf

/-! ### Distances -/

def CallSiteKey.trueDistances (offsetOf : ℤ → BitVec 64) (key : CallSiteKey) :
    List (BitVec 64) :=
  [offsetOf key.tryStartId, offsetOf key.tryEndId - offsetOf key.tryStartId,
    offsetOf key.landingPadId]

theorem sub_function (value : BitVec 64) : value - 0 = value :=
  BitVec.sub_zero value

theorem printedValue_zero (offsetOf : ℤ → BitVec 64) (id : ℤ) :
    printedValue offsetOf 0 id = if id = 0 then 0 else offsetOf id := by
  rw [printedValue, if_pos (rfl : (0 : ℤ) = 0), sub_function]
  simp only [eq_comm]

variable {key : CallSiteKey}

/-- Both ways to write the distances of a key that is placed are right. -/
theorem CallSiteKey.Placed.distances {offsetOf : ℤ → BitVec 64} (placed : key.Placed offsetOf) :
    key.distances (printedValue offsetOf) = key.trueDistances offsetOf ∧
      key.distances (emittedValue offsetOf) = key.trueDistances offsetOf := by
  have fromStart : (if key.tryStartId = 0 then 0 else offsetOf key.tryStartId) =
      offsetOf key.tryStartId := by
    split
    · next zero => rw [zero, placed.zeroStart zero]
    · rfl
  have fromPad : (if key.landingPadId = 0 then 0 else offsetOf key.landingPadId) =
      offsetOf key.landingPadId := by
    split
    · next zero => rw [zero, placed.zeroLandingPad zero]
    · rfl
  have length : printedValue offsetOf key.tryStartId key.tryEndId =
      offsetOf key.tryEndId - offsetOf key.tryStartId := by
    rw [printedValue, fromStart]
    split
    · next same =>
        rw [same]
        exact (BitVec.sub_self _).symm
    · rfl
  constructor
  · rw [CallSiteKey.distances, printedValue_zero, printedValue_zero, fromStart, fromPad, length]
    rfl
  · rw [CallSiteKey.distances]
    simp only [emittedValue, fromStart, if_true, sub_function]
    rfl

/-- A key whose printed distances are right and accepted is placed. -/
theorem CallSiteKey.placed_of_distances {offsetOf : ℤ → BitVec 64}
    (accepted : key.Accepted true (printedValue offsetOf))
    (right : key.distances (printedValue offsetOf) = key.trueDistances offsetOf) :
    key.Placed offsetOf := by
  rw [CallSiteKey.Accepted, right] at accepted
  simp only [trueDistances, List.forall_mem_cons, Bool.true_and] at accepted
  simp only [distances, trueDistances, List.cons.injEq, printedValue_zero] at right
  refine ⟨accepted.1, accepted.2.1, accepted.2.2.1, ?_, ?_⟩
  · intro zero
    have same := right.1
    rw [if_pos zero, zero] at same
    exact same.symm
  · intro zero
    have same := right.2.2.1
    rw [if_pos zero, zero] at same
    exact same.symm

theorem count_key (ranges : List DaveEHLSDARange) (key : CallSiteKey) :
    (ranges.map (·.key)).count key = (rangesOf ranges key).length := by
  rw [List.count, List.countP_map, rangesOf, List.countP_eq_length_filter]
  rfl

/-- The actions of a group are a slice of the array. -/
theorem actionsIn_eq_slice {actions : List ℤ}
    (within : group.firstAction + group.actionCount ≤ actions.length) :
    group.actionsIn actions = (actions.drop group.firstAction).take group.actionCount := by
  apply List.ext_getElem
  · rw [length_actionsIn, List.length_take, List.length_drop]
    omega
  · intro index inside _
    rw [length_actionsIn] at inside
    have bound : group.firstAction + index < actions.length := by omega
    simp [LSDACallSiteGroup.actionsIn, List.getElem?_eq_getElem bound]

/-- Where all ranges are collected, the actions of a group mean what the ranges from the first
one of its call site on do. -/
theorem meaning_actionsIn {ranges : List DaveEHLSDARange} (complete : Complete (emittedTypes ranges)
      ranges ⟨sortedGroups ranges, collectedActions ranges⟩)
    (types : (neededTypes ranges).dedup.length ≤ typeCapacity)
    (member : group ∈ sortedGroups ranges) :
    (group.actionsIn (collectedActions ranges)).map (meaningOf (emittedTypes ranges)) =
      ((ranges.drop ((ranges.map (·.key)).idxOf group.key)).take
        (rangesOf ranges group.key).length).map (·.action) := by
  have actions : collectedActions ranges = ranges.map (·.typeFilter (emittedTypes ranges)) :=
    complete.actions
  rw [actionsIn_eq_slice ((collected_sorted ranges).within group member),
    complete.first group member, complete.count group member, count_key, actions,
    ← List.map_drop, ← List.map_take, List.map_map]
  apply List.map_congr_left
  intro range inSlice
  apply meaningOf_typeFilter
  intro catches
  apply mem_emittedTypes types
  have inRanges : range ∈ ranges := List.mem_of_mem_drop (List.mem_of_mem_take inSlice)
  exact List.mem_map.mpr ⟨range, List.mem_filter.mpr ⟨inRanges, by rw [catches]; rfl⟩, rfl⟩

/-- A table of ranges that it can represent is right. -/
theorem Representable.decodesToRanges {offsetOf : ℤ → BitVec 64} {ranges : List DaveEHLSDARange}
    (representable : Representable offsetOf ranges) (nonempty : ranges ≠ []) :
    DecodesToRanges offsetOf ranges := by
  have complete := complete_sorted representable.actions representable.groups
  have collected := collected_sorted ranges
  have placedKey : ∀ group ∈ sortedGroups ranges, group.key.Placed offsetOf := by
    intro group member
    obtain ⟨range, inRanges, same⟩ := collected.named group member
    exact same ▸ representable.placed range inRanges
  have sites : ∀ group ∈ sortedGroups ranges,
      (group.row (printedValue offsetOf) (collectedActions ranges)).site (emittedTypes ranges) =
        expectedSite offsetOf ranges group.key := by
    intro group member
    have distances := (placedKey group member).distances.1
    simp only [CallSiteKey.distances, CallSiteKey.trueDistances, List.cons.injEq] at distances
    obtain ⟨range, inRanges, same⟩ := collected.named group member
    have contiguous := representable.contiguous range inRanges
    rw [same] at contiguous
    rw [LSDARow.site, LSDACallSiteGroup.row, expectedSite, meaning_actionsIn complete
      representable.types member, contiguous, distances.1, distances.2.1, distances.2.2.1]
  have sameRows : tableRows (emittedValue offsetOf) ranges =
      tableRows (printedValue offsetOf) ranges := by
    apply List.map_congr_left
    intro group member
    have distances := (placedKey group member).distances
    have same := distances.2.trans distances.1.symm
    simp only [CallSiteKey.distances, List.cons.injEq] at same
    rw [LSDACallSiteGroup.row, LSDACallSiteGroup.row, same.1, same.2.1, same.2.2.1]
  intro start
  obtain ⟨position, placed⟩ := exists_tablePlaced (emittedTypes ranges)
    (tableRows (printedValue offsetOf) ranges) start
  have accepted : ∀ group ∈ sortedGroups ranges,
      group.key.Accepted true (printedValue offsetOf) := by
    intro group member
    have placed := placedKey group member
    rw [CallSiteKey.Accepted, placed.distances.1]
    simp only [CallSiteKey.trueDistances, List.forall_mem_cons, placed.start, placed.length,
      placed.landingPad, Bool.and_false, true_and]
    exact fun _ absent => absurd absent List.not_mem_nil
  have assembled := (assemble_printed nonempty).mpr ⟨placed, accepted, rfl⟩
  refine ⟨position, _, (sortedGroups ranges).map (·.key), assembled,
    ⟨(sortedGroups_sorts ranges).2, ?_⟩, ?_, position, ?_⟩
  · intro key
    rw [List.mem_map]
    constructor
    · rintro ⟨group, member, rfl⟩
      exact collected.named group member
    · rintro ⟨range, member, rfl⟩
      exact complete.grouped range member
  · rw [decode_printed nonempty assembled, tableRows, List.map_map, List.map_map]
    exact congrArg some (List.map_congr_left sites)
  · rw [assemble_emitted nonempty, sameRows]
    exact ⟨placed, fun group _ distance _ => rfl, rfl⟩

/-- In a table that is right, every group is a call site of the ranges and stands for it. -/
theorem DecodesToRanges.sites {offsetOf : ℤ → BitVec 64} {ranges : List DaveEHLSDARange}
    (decodes : DecodesToRanges offsetOf ranges) (nonempty : ranges ≠ []) :
    IsCallSites ranges ((sortedGroups ranges).map (·.key)) ∧
      ∀ group ∈ sortedGroups ranges, group.key.Accepted true (printedValue offsetOf) ∧
        (group.row (printedValue offsetOf) (collectedActions ranges)).site (emittedTypes ranges) =
          expectedSite offsetOf ranges group.key := by
  have collected := collected_sorted ranges
  obtain ⟨position, cells, keys, assembled, isCallSites, decoded, -⟩ := decodes 0
  have accepted := ((assemble_printed nonempty).mp assembled).2.1
  rw [decode_printed nonempty assembled, Option.some.injEq, tableRows, List.map_map] at decoded
  have lengths : (sortedGroups ranges).length = keys.length := by
    have lengths := congrArg List.length decoded
    rwa [List.length_map, List.length_map] at lengths
  have inside : (sortedGroups ranges).map (·.key) ⊆ keys := by
    intro key member
    obtain ⟨group, inGroups, rfl⟩ := List.mem_map.mp member
    exact (isCallSites.mem_iff _).mpr (collected.named group inGroups)
  have perm := (List.subperm_of_subset collected.distinct inside).perm_of_length_le
    (by rw [List.length_map, lengths])
  have sameKeys : (sortedGroups ranges).map (·.key) = keys :=
    List.Perm.eq_of_pairwise (fun _ _ _ _ before after => absurd after before.asymm)
      (sortedGroups_sorts ranges).2 isCallSites.ordered perm
  rw [← sameKeys, List.map_map, List.map_inj_left] at decoded
  rw [sameKeys]
  exact ⟨isCallSites, fun group member => ⟨accepted group member, decoded group member⟩⟩

theorem IsCallSites.sum_rangesOf {ranges : List DaveEHLSDARange} {keys : List CallSiteKey}
    (isCallSites : IsCallSites ranges keys) :
    (keys.map fun key => (rangesOf ranges key).length).sum = ranges.length := by
  have distinct : keys.Nodup := isCallSites.ordered.imp fun ordered same => by
    rw [same] at ordered
    exact ordered.asymm ordered
  have perm : keys.Perm (ranges.map (·.key)).dedup := by
    apply (List.perm_ext_iff_of_nodup distinct (List.nodup_dedup _)).mpr
    intro key
    rw [isCallSites.mem_iff, List.mem_dedup, List.mem_map]
  have counted := List.sum_map_count_dedup_eq_length (ranges.map (·.key))
  rw [(perm.map _).sum_eq, ← List.length_map (·.key), ← counted]
  simp only [count_key]

/-- The ranges of a table that is right can be represented. -/
theorem DecodesToRanges.representable {offsetOf : ℤ → BitVec 64} {ranges : List DaveEHLSDARange}
    (decodes : DecodesToRanges offsetOf ranges) (nonempty : ranges ≠ []) :
    Representable offsetOf ranges := by
  have collected := collected_sorted ranges
  obtain ⟨isCallSites, sites⟩ := decodes.sites nonempty
  have own : ∀ group ∈ sortedGroups ranges,
      (group.actionsIn (collectedActions ranges)).map (meaningOf (emittedTypes ranges)) =
        (rangesOf ranges group.key).map (·.action) :=
    fun group member => congrArg LSDACallSite.actions (sites group member).2
  have groupOf : ∀ range ∈ ranges, ∃ group ∈ sortedGroups ranges, group.key = range.key := by
    intro range member
    exact List.mem_map.mp ((isCallSites.mem_iff _).mpr ⟨range, member, rfl⟩)
  have actions : ranges.length ≤ actionCapacity := by
    have counts : (sortedGroups ranges).map (·.actionCount) =
        (sortedGroups ranges).map fun group => (rangesOf ranges group.key).length := by
      apply List.map_congr_left
      intro group member
      have lengths := congrArg List.length (own group member)
      rwa [List.length_map, List.length_map, length_actionsIn] at lengths
    have total := isCallSites.sum_rangesOf
    rw [List.map_map] at total
    rw [← total, Function.comp_def, ← counts, collected.counted]
    exact collected.actionsFit
  have groups : (ranges.map (·.key)).dedup.length ≤ groupCapacity := by
    have inGroups : ∀ key ∈ (ranges.map (·.key)).dedup,
        key ∈ (sortedGroups ranges).map (·.key) := by
      intro key member
      obtain ⟨range, inRanges, rfl⟩ := List.mem_map.mp (List.mem_dedup.mp member)
      exact (isCallSites.mem_iff _).mpr ⟨range, inRanges, rfl⟩
    have fewer := length_le_dedup (List.nodup_dedup _) inGroups
    rw [collected.distinct.dedup, List.length_map] at fewer
    exact Nat.le_trans fewer collected.groupsFit
  have types : (neededTypes ranges).dedup.length ≤ typeCapacity := by
    have inTable : ∀ type ∈ neededTypes ranges, type ∈ emittedTypes ranges := by
      intro type member
      obtain ⟨range, filtered, rfl⟩ := List.mem_map.mp member
      obtain ⟨inRanges, catches⟩ := List.mem_filter.mp filtered
      obtain ⟨group, inGroups, same⟩ := groupOf range inRanges
      have isOwn : range ∈ rangesOf ranges group.key :=
        List.mem_filter.mpr ⟨inRanges, beq_iff_eq.mpr same.symm⟩
      have inActions := List.mem_map_of_mem (f := (·.action)) isOwn
      rw [← own group inGroups] at inActions
      obtain ⟨filter, inGroup, means⟩ := List.mem_map.mp inActions
      have covered := collected.covered filter (mem_actionsIn collected inGroups inGroup)
      apply mem_of_meaningOf covered.1 covered.2
      rw [means, DaveEHLSDARange.action, if_neg (by simpa using catches)]
    have fewer := (List.subperm_of_subset (List.nodup_dedup (neededTypes ranges))
      fun type member => inTable type (List.mem_dedup.mp member)).length_le
    exact Nat.le_trans fewer (length_emittedTypes_le ranges)
  refine ⟨actions, groups, types, ?_, ?_⟩
  · intro range member
    obtain ⟨group, inGroups, same⟩ := groupOf range member
    rw [← same, ← own group inGroups]
    exact (meaning_actionsIn (complete_sorted actions groups) types inGroups).symm
  · intro range member
    obtain ⟨group, inGroups, same⟩ := groupOf range member
    obtain ⟨accepted, site⟩ := sites group inGroups
    rw [← same]
    apply placed_of_distances accepted
    simp only [LSDARow.site, LSDACallSiteGroup.row, expectedSite, LSDACallSite.mk.injEq,
      BitVec.toNat_inj] at site
    rw [distances, trueDistances, site.1, site.2.1, site.2.2.1]

/-- A table decodes to its ranges exactly when it can represent them. -/
theorem decodesToRanges_iff (offsetOf : ℤ → BitVec 64) (ranges : List DaveEHLSDARange) :
    DecodesToRanges offsetOf ranges ↔ Representable offsetOf ranges := by
  by_cases empty : ranges = []
  · constructor
    · intro _
      rw [empty]
      exact ⟨Nat.zero_le _, Nat.zero_le _, Nat.zero_le _, fun _ absent => absurd absent
        List.not_mem_nil, fun _ absent => absurd absent List.not_mem_nil⟩
    · intro _ start
      rw [empty]
      refine ⟨fun _ => start, [], [], rfl, ⟨List.Pairwise.nil, ?_⟩, ?_, fun _ => start, rfl⟩
      · simp
      · rw [List.drop_nil]
        rfl
  · exact ⟨fun decodes => decodes.representable empty,
      fun representable => representable.decodesToRanges empty⟩

/-- Two call sites whose ranges are interleaved. -/
def interleavedRanges : List DaveEHLSDARange :=
  [⟨1, 2, 5, some "_ZTIi", false⟩, ⟨3, 4, 6, some "_ZTIc", false⟩, ⟨1, 2, 5, some "_ZTId", false⟩]

/-- The first call site of interleaved ranges gets a handler of the second. -/
theorem interleavedRanges_undecodable :
    ¬ DecodesToRanges (fun id => BitVec.ofInt 64 (4 * id)) interleavedRanges := by
  intro decodes
  have sites := (decodes.sites (by decide)).2 ⟨⟨1, 2, 5⟩, 0, 2⟩ (by decide)
  have actions := congrArg LSDACallSite.actions sites.2
  revert actions
  decide

end DaveCC.Backend
