import DaveCC.Backend.ExceptionTableAssembly

/-!
# The groups of an exception table

What the loops over ranges and groups leave in the arrays: the byte offsets of the chains, the
groups that ranges with the same call site share, and, where no array is full, that a group has
the first range of its call site and the count of all of them.
-/

namespace DaveCC.Backend

open DaveCC.Arith DaveCC.Container

theorem length_sleb128 (rounds : Nat) (value : ℤ) :
    (sleb128 rounds value).length = sleb128Size rounds value := by
  induction rounds generalizing value with
  | zero => rfl
  | succ rounds ih =>
    rw [sleb128, sleb128Size]
    split
    · rfl
    · rw [List.length_cons, ih]

theorem length_recordCells {filter displacement : ℤ}
    (isNext : displacement = 0 ∨ displacement = 1) :
    (recordCells filter displacement).length = recordSize filter := by
  have oneByte : (sleb128 10 displacement).length = 1 := by
    rcases isNext with rfl | rfl <;> rfl
  rw [recordCells, List.length_append, length_bytesOf, length_bytesOf, oneByte, length_sleb128]
  rfl

/-- The bytes of a chain. -/
theorem length_chainCells (filters : List ℤ) :
    (chainCells filters).length = (filters.map recordSize).sum := by
  induction filters with
  | nil => rfl
  | cons filter filters ih =>
    cases filters with
    | nil => exact length_recordCells (.inl rfl)
    | cons next filters =>
      rw [chainCells, List.length_append, length_recordCells (.inr rfl), ih]
      rfl

/-- A loop over the slice of an array that holds a list goes over the list. -/
theorem map_getD_slice (size : ℤ → Nat) (before filters after : List ℤ) :
    ((List.range filters.length).map fun index =>
        size ((before ++ (filters ++ after)).getD (before.length + index) 0)) =
      filters.map size := by
  apply List.ext_getElem
  · simp
  · intro index inside _
    rw [List.length_map, List.length_range] at inside
    simp [List.getElem?_append_right, List.getElem?_append_left inside, inside]

theorem length_actionsIn (group : LSDACallSiteGroup) (actions : List ℤ) :
    (group.actionsIn actions).length = group.actionCount := by
  rw [LSDACallSiteGroup.actionsIn, List.length_map, List.length_range]

theorem length_flatMap_actionsIn (groups : List LSDACallSiteGroup) (actions : List ℤ) :
    (groups.flatMap (·.actionsIn actions)).length = (groups.map (·.actionCount)).sum := by
  rw [List.length_flatMap]
  simp only [length_actionsIn]

/-- The bytes of a group's records, from the array of the sorted actions. -/
theorem sum_recordSize (value : ℤ → ℤ → BitVec 64) (done groups : List LSDACallSiteGroup)
    (group : LSDACallSiteGroup) (actions : List ℤ) :
    ((List.range group.actionCount).map fun index =>
        recordSize ((orderedSites (done ++ group :: groups) actions).actions.getD
          ((done.map (·.actionCount)).sum + index) 0)).sum =
      (chainCells (group.row value actions).filters).length := by
  have slice := map_getD_slice recordSize (done.flatMap (·.actionsIn actions))
    (group.actionsIn actions) (groups.flatMap (·.actionsIn actions))
  rw [length_actionsIn, length_flatMap_actionsIn] at slice
  rw [length_chainCells, LSDACallSiteGroup.row, ← slice, orderedSites, List.flatMap_append,
    List.flatMap_cons]

/-- `DaveEHPrintExceptTable` counts the byte offsets of the chains. -/
theorem printedOffsets_eq (value : ℤ → ℤ → BitVec 64) (groups : List LSDACallSiteGroup)
    (actions : List ℤ) :
    printedOffsets (orderedSites groups actions) =
      chainOffsets 0 (groups.map (·.row value actions)) := by
  have run (done rest : List LSDACallSiteGroup) (running : RunningOffset)
      (whole : groups = done ++ rest) :
      ((rest.zipIdx done.length).foldl (RunningOffset.print (orderedSites groups actions))
          running).offsets =
        running.offsets ++ chainOffsets running.byteOffset (rest.map (·.row value actions)) := by
    induction rest generalizing done running with
    | nil => exact (List.append_nil _).symm
    | cons group rest ih =>
      have later := ih (done ++ [group])
        (running.print (orderedSites groups actions) (group, done.length))
        (by rw [whole, List.append_assoc]; rfl)
      rw [List.length_append, List.length_singleton] at later
      rw [List.zipIdx_cons, List.foldl_cons, later, List.map_cons, chainOffsets]
      have before : ((groups.take done.length).map (·.actionCount)).sum =
          (done.map (·.actionCount)).sum := by
        rw [whole, List.take_left]
      have size := sum_recordSize value done rest group actions
      rw [← whole, ← before] at size
      simp only [RunningOffset.print, List.append_assoc, List.singleton_append]
      rw [← size]
      rfl
  exact run [] groups ⟨[], 0, 0⟩ rfl

/-- `DaveEHEmitGCCExceptTable` counts the same byte offsets. -/
theorem emittedOffsets_eq (value : ℤ → ℤ → BitVec 64) (groups : List LSDACallSiteGroup)
    (actions : List ℤ) :
    emittedOffsets (orderedSites groups actions) =
      chainOffsets 0 (groups.map (·.row value actions)) := by
  have run (done rest : List LSDACallSiteGroup) (running : RunningOffset)
      (whole : groups = done ++ rest)
      (counted : running.actionIndex = (done.map (·.actionCount)).sum) :
      (rest.foldl (RunningOffset.emit (orderedSites groups actions)) running).offsets =
        running.offsets ++ chainOffsets running.byteOffset (rest.map (·.row value actions)) := by
    induction rest generalizing done running with
    | nil => exact (List.append_nil _).symm
    | cons group rest ih =>
      have later := ih (done ++ [group]) (running.emit (orderedSites groups actions) group)
        (by rw [whole, List.append_assoc]; rfl)
        (by simp [RunningOffset.emit, counted])
      rw [List.foldl_cons, later, List.map_cons, chainOffsets]
      have size := sum_recordSize value done rest group actions
      rw [← whole, ← counted] at size
      simp only [RunningOffset.emit, List.append_assoc, List.singleton_append]
      rw [← size]
  exact run [] groups ⟨[], 0, 0⟩ rfl rfl

/-! ## Collecting groups -/

theorem modify_last {α : Type} (change : α → α) (before : List α) (last : α) :
    (before ++ [last]).modify before.length change = before ++ [change last] := by
  induction before with
  | nil => rfl
  | cons first before ih => exact congrArg (first :: ·) ih

/-- What one range does to the groups: nothing where an array is full, one more action for the
group of its call site, or a new group. -/
theorem CallSites.add_cases (typeSymbols : List (Option String)) (sites : CallSites)
    (range : DaveEHLSDARange) :
    (sites.add typeSymbols range = sites ∧ (actionCapacity ≤ sites.actions.length ∨
      (∀ group ∈ sites.groups, group.key ≠ range.key) ∧ groupCapacity ≤ sites.groups.length)) ∨
    sites.actions.length < actionCapacity ∧
      ((∃ before group after, sites.groups = before ++ group :: after ∧ group.key = range.key ∧
          sites.add typeSymbols range =
            ⟨before ++ { group with actionCount := group.actionCount + 1 } :: after,
              sites.actions ++ [range.typeFilter typeSymbols]⟩) ∨
        (∀ group ∈ sites.groups, group.key ≠ range.key) ∧ sites.groups.length < groupCapacity ∧
          sites.add typeSymbols range =
            ⟨sites.groups ++ [⟨range.key, sites.actions.length, 1⟩],
              sites.actions ++ [range.typeFilter typeSymbols]⟩) := by
  rw [CallSites.add]
  cases found : sites.groups.findIdx? (·.key == range.key) with
  | some index =>
    obtain ⟨inside, same, -⟩ := List.findIdx?_eq_some_iff_getElem.mp found
    by_cases full : actionCapacity ≤ sites.actions.length
    · exact .inl ⟨if_pos full, .inl full⟩
    · obtain ⟨before, group, after, split, place, modified⟩ := List.exists_of_modify
        (fun group : LSDACallSiteGroup => { group with actionCount := group.actionCount + 1 })
        inside
      have sameKey : group.key = range.key := by
        simp only [split, ← place, List.getElem_append_right (Nat.le_refl _),
          Nat.sub_self, List.getElem_cons_zero] at same
        exact eq_of_beq same
      refine .inr ⟨Nat.lt_of_not_le full, .inl ⟨before, group, after, split, sameKey, ?_⟩⟩
      simp only [CallSites.addAction]
      rw [if_neg full, modified]
  | none =>
    have fresh : ∀ group ∈ sites.groups, group.key ≠ range.key := by
      intro group member same
      have absent := List.findIdx?_eq_none_iff.mp found group member
      exact absurd (beq_iff_eq.mpr same) (Bool.eq_false_iff.mp absent)
    by_cases full : actionCapacity ≤ sites.actions.length
    · exact .inl ⟨if_pos (.inr full), .inl full⟩
    by_cases grouped : groupCapacity ≤ sites.groups.length
    · exact .inl ⟨if_pos (.inl grouped), .inr ⟨fresh, grouped⟩⟩
    refine .inr ⟨Nat.lt_of_not_le full, .inr ⟨fresh, Nat.lt_of_not_le grouped, ?_⟩⟩
    simp only [CallSites.addAction]
    rw [if_neg (not_or.mpr ⟨grouped, full⟩), if_neg full, modify_last]

/-- What holds of the groups of ranges, whichever arrays are full. -/
structure Collected (typeSymbols : List (Option String)) (ranges : List DaveEHLSDARange)
    (sites : CallSites) : Prop where
  distinct : (sites.groups.map (·.key)).Nodup
  named : ∀ group ∈ sites.groups, ∃ range ∈ ranges, range.key = group.key
  positive : ∀ group ∈ sites.groups, 0 < group.actionCount
  within : ∀ group ∈ sites.groups, group.firstAction + group.actionCount ≤ sites.actions.length
  counted : (sites.groups.map (·.actionCount)).sum = sites.actions.length
  actionsFit : sites.actions.length ≤ actionCapacity
  groupsFit : sites.groups.length ≤ groupCapacity
  covered : ∀ filter ∈ sites.actions, 0 ≤ filter ∧ filter ≤ typeSymbols.length

theorem typeFilter_covered (typeSymbols : List (Option String)) (range : DaveEHLSDARange) :
    0 ≤ range.typeFilter typeSymbols ∧ range.typeFilter typeSymbols ≤ typeSymbols.length := by
  rw [DaveEHLSDARange.typeFilter]
  split
  · omega
  · rw [findTypeIndex]
    split
    · next found =>
        have inside := (List.findIdx?_eq_some_iff_getElem.mp found).1
        omega
    · omega

variable {typeSymbols : List (Option String)} {ranges : List DaveEHLSDARange} {sites : CallSites}

/-- One more range keeps what holds of the groups. -/
theorem Collected.add (collected : Collected typeSymbols ranges sites) (range : DaveEHLSDARange) :
    Collected typeSymbols (ranges ++ [range]) (sites.add typeSymbols range) := by
  have named : ∀ group ∈ sites.groups, ∃ other ∈ ranges ++ [range], other.key = group.key := by
    intro group member
    obtain ⟨other, inRanges, same⟩ := collected.named group member
    exact ⟨other, List.mem_append_left _ inRanges, same⟩
  have covered : ∀ filter ∈ sites.actions ++ [range.typeFilter typeSymbols],
      0 ≤ filter ∧ filter ≤ typeSymbols.length := by
    intro filter member
    rcases List.mem_append.mp member with old | new
    · exact collected.covered filter old
    · rw [List.mem_singleton.mp new]
      exact typeFilter_covered typeSymbols range
  rcases sites.add_cases typeSymbols range with ⟨same, -⟩ | ⟨room, added⟩
  · rw [same]
    exact { collected with named := named }
  rcases added with ⟨before, group, after, split, sameKey, added⟩ | ⟨fresh, groupRoom, added⟩
  · have inBefore : ∀ other ∈ before, other ∈ sites.groups := by
      intro other member
      rw [split]
      exact List.mem_append_left _ member
    have inAfter : ∀ other ∈ after, other ∈ sites.groups := by
      intro other member
      rw [split]
      exact List.mem_append_right _ (List.mem_cons_of_mem _ member)
    have here : group ∈ sites.groups := by
      rw [split]
      exact List.mem_append_right _ List.mem_cons_self
    have distinct := collected.distinct
    have counted := collected.counted
    have groupsFit := collected.groupsFit
    rw [split] at distinct counted groupsFit
    rw [added]
    constructor
    · simpa using distinct
    · intro other member
      rcases List.mem_append.mp member with old | member
      · exact named other (inBefore other old)
      rcases List.mem_cons.mp member with rfl | old
      · exact named group here
      · exact named other (inAfter other old)
    · intro other member
      rcases List.mem_append.mp member with old | member
      · exact collected.positive other (inBefore other old)
      rcases List.mem_cons.mp member with rfl | old
      · exact Nat.succ_pos _
      · exact collected.positive other (inAfter other old)
    · intro other member
      rw [List.length_append, List.length_singleton]
      rcases List.mem_append.mp member with old | member
      · exact Nat.le_succ_of_le (collected.within other (inBefore other old))
      rcases List.mem_cons.mp member with rfl | old
      · exact Nat.succ_le_succ (collected.within group here)
      · exact Nat.le_succ_of_le (collected.within other (inAfter other old))
    · rw [List.length_append, List.length_singleton, ← counted]
      simp only [List.map_append, List.map_cons, List.sum_append, List.sum_cons]
      omega
    · rw [List.length_append, List.length_singleton]
      exact room
    · simpa using groupsFit
    · exact covered
  · rw [added]
    constructor
    · rw [List.map_append, List.nodup_append]
      refine ⟨collected.distinct, List.nodup_singleton _, ?_⟩
      intro key member other new
      obtain ⟨group, inGroups, rfl⟩ := List.mem_map.mp member
      rw [List.map_singleton, List.mem_singleton] at new
      rw [new]
      exact fresh group inGroups
    · intro group member
      rcases List.mem_append.mp member with old | new
      · exact named group old
      · rw [List.mem_singleton.mp new]
        exact ⟨range, List.mem_append_right _ List.mem_cons_self, rfl⟩
    · intro group member
      rcases List.mem_append.mp member with old | new
      · exact collected.positive group old
      · rw [List.mem_singleton.mp new]
        exact Nat.succ_pos 0
    · intro group member
      rw [List.length_append, List.length_singleton]
      rcases List.mem_append.mp member with old | new
      · exact Nat.le_succ_of_le (collected.within group old)
      · rw [List.mem_singleton.mp new]
    · rw [List.map_append, List.sum_append, List.length_append, collected.counted]
      rfl
    · rw [List.length_append, List.length_singleton]
      exact room
    · rw [List.length_append, List.length_singleton]
      exact groupRoom
    · exact covered

/-- The groups of ranges. -/
theorem collected_foldl (typeSymbols : List (Option String)) (ranges : List DaveEHLSDARange) :
    Collected typeSymbols ranges (ranges.foldl (CallSites.add typeSymbols) ⟨[], []⟩) := by
  induction ranges using List.reverseRecOn with
  | nil =>
    refine ⟨List.nodup_nil, ?_, ?_, ?_, rfl, Nat.zero_le _, Nat.zero_le _, ?_⟩ <;>
      exact fun _ absent => absurd absent List.not_mem_nil
  | append_singleton ranges range ih =>
    rw [List.foldl_append]
    exact ih.add range

/-- What holds as long as no array is full: the actions are those of all ranges, and a group
has the index of its call site's first range and their count. -/
structure Complete (typeSymbols : List (Option String)) (ranges : List DaveEHLSDARange)
    (sites : CallSites) : Prop where
  actions : sites.actions = ranges.map (·.typeFilter typeSymbols)
  grouped : ∀ range ∈ ranges, ∃ group ∈ sites.groups, group.key = range.key
  first : ∀ group ∈ sites.groups, group.firstAction = (ranges.map (·.key)).idxOf group.key
  count : ∀ group ∈ sites.groups, group.actionCount = (ranges.map (·.key)).count group.key

/-- A list without duplicates is no longer than the values it is from. -/
theorem length_le_dedup {α : Type} [DecidableEq α] {values others : List α}
    (distinct : values.Nodup) (inside : ∀ value ∈ values, value ∈ others) :
    values.length ≤ others.dedup.length := by
  apply List.Subperm.length_le
  exact List.subperm_of_subset distinct fun value member => List.mem_dedup.mpr (inside value member)

/-- A range for which there is room keeps the groups complete. -/
theorem Complete.add (complete : Complete typeSymbols ranges sites)
    (collected : Collected typeSymbols ranges sites) {range : DaveEHLSDARange}
    (room : ranges.length < actionCapacity)
    (groupRoom : (∀ other ∈ ranges, other.key ≠ range.key) → sites.groups.length < groupCapacity) :
    Complete typeSymbols (ranges ++ [range]) (sites.add typeSymbols range) := by
  have length : sites.actions.length = ranges.length := by
    rw [complete.actions, List.length_map]
  have actions : sites.actions ++ [range.typeFilter typeSymbols] =
      (ranges ++ [range]).map (·.typeFilter typeSymbols) := by
    rw [complete.actions, List.map_append, List.map_singleton]
  have keyOf : ∀ group ∈ sites.groups, group.key ∈ ranges.map (·.key) := by
    intro group member
    obtain ⟨other, inRanges, same⟩ := collected.named group member
    exact List.mem_map.mpr ⟨other, inRanges, same⟩
  have first : ∀ group ∈ sites.groups,
      group.firstAction = ((ranges ++ [range]).map (·.key)).idxOf group.key := by
    intro group member
    rw [List.map_append, List.idxOf_append_of_mem (keyOf group member)]
    exact complete.first group member
  have count : ∀ group ∈ sites.groups, group.key ≠ range.key →
      group.actionCount = ((ranges ++ [range]).map (·.key)).count group.key := by
    intro group member other
    rw [List.map_append, List.map_singleton, List.count_append, List.count_singleton,
      if_neg (fun same => other (eq_of_beq same).symm)]
    exact complete.count group member
  have grouped : ∀ other ∈ ranges ++ [range], other.key ≠ range.key →
      ∃ group ∈ sites.groups, group.key = other.key := by
    intro other member different
    rcases List.mem_append.mp member with old | new
    · exact complete.grouped other old
    · exact absurd (congrArg DaveEHLSDARange.key (List.mem_singleton.mp new)) different
  rcases sites.add_cases typeSymbols range with ⟨-, full | ⟨fresh, full⟩⟩ | ⟨-, added⟩
  · omega
  · have absent : ∀ other ∈ ranges, other.key ≠ range.key := by
      intro other member same
      obtain ⟨group, inGroups, sameKey⟩ := complete.grouped other member
      exact fresh group inGroups (sameKey.trans same)
    exact absurd (groupRoom absent) (Nat.not_lt_of_le full)
  rcases added with ⟨before, group, after, split, sameKey, added⟩ | ⟨fresh, -, added⟩
  · have inGroups (other : LSDACallSiteGroup) : other ∈ before ∨ other = group ∨ other ∈ after →
        other ∈ sites.groups := by
      rw [split, List.mem_append, List.mem_cons]
      exact id
    have distinct := collected.distinct
    rw [split, List.map_append, List.map_cons, List.nodup_append, List.nodup_cons] at distinct
    have beforeOther : ∀ other ∈ before, other.key ≠ range.key := by
      intro other member
      rw [← sameKey]
      exact distinct.2.2 _ (List.mem_map_of_mem member) _ List.mem_cons_self
    have afterOther : ∀ other ∈ after, other.key ≠ range.key := by
      intro other member same
      exact distinct.2.1.1 (List.mem_map.mpr ⟨other, member, same.trans sameKey.symm⟩)
    rw [added]
    constructor
    · exact actions
    · intro other member
      by_cases same : other.key = range.key
      · exact ⟨_, List.mem_append_right _ List.mem_cons_self, sameKey.trans same.symm⟩
      obtain ⟨found, isGroup, foundKey⟩ := grouped other member same
      rw [split] at isGroup
      rcases List.mem_append.mp isGroup with old | isGroup
      · exact ⟨found, List.mem_append_left _ old, foundKey⟩
      rcases List.mem_cons.mp isGroup with rfl | old
      · exact absurd (foundKey.symm.trans sameKey) same
      · exact ⟨found, List.mem_append_right _ (List.mem_cons_of_mem _ old), foundKey⟩
    · intro other member
      rcases List.mem_append.mp member with old | member
      · exact first other (inGroups other (.inl old))
      rcases List.mem_cons.mp member with rfl | old
      · exact first group (inGroups group (.inr (.inl rfl)))
      · exact first other (inGroups other (.inr (.inr old)))
    · intro other member
      rcases List.mem_append.mp member with old | member
      · exact count other (inGroups other (.inl old)) (beforeOther other old)
      rcases List.mem_cons.mp member with rfl | old
      · have counted := complete.count group (inGroups group (.inr (.inl rfl)))
        rw [List.map_append, List.map_singleton, List.count_append, List.count_singleton,
          if_pos (beq_iff_eq.mpr sameKey.symm)]
        exact congrArg (· + 1) counted
      · exact count other (inGroups other (.inr (.inr old))) (afterOther other old)
  · have absent : range.key ∉ ranges.map (·.key) := by
      intro member
      obtain ⟨other, inRanges, same⟩ := List.mem_map.mp member
      obtain ⟨group, inGroups, sameKey⟩ := complete.grouped other inRanges
      exact fresh group inGroups (sameKey.trans same)
    rw [added]
    constructor
    · exact actions
    · intro other member
      by_cases same : other.key = range.key
      · exact ⟨_, List.mem_append_right _ List.mem_cons_self, same.symm⟩
      obtain ⟨group, isGroup, sameKey⟩ := grouped other member same
      exact ⟨group, List.mem_append_left _ isGroup, sameKey⟩
    · intro group member
      rcases List.mem_append.mp member with old | new
      · exact first group old
      · rw [List.mem_singleton.mp new, List.map_append, List.map_singleton,
          List.idxOf_append_of_notMem absent, List.idxOf_cons_self, List.length_map, length]
        rfl
    · intro group member
      rcases List.mem_append.mp member with old | new
      · exact count group old (fresh group old)
      · rw [List.mem_singleton.mp new, List.map_append, List.map_singleton, List.count_append,
          List.count_eq_zero_of_not_mem absent, List.count_singleton_self]

/-- Ranges and call sites for which there is room are all collected. -/
theorem complete_foldl (typeSymbols : List (Option String)) (ranges : List DaveEHLSDARange)
    (room : ranges.length ≤ actionCapacity)
    (groupRoom : (ranges.map (·.key)).dedup.length ≤ groupCapacity) :
    Complete typeSymbols ranges (ranges.foldl (CallSites.add typeSymbols) ⟨[], []⟩) := by
  induction ranges using List.reverseRecOn with
  | nil =>
    refine ⟨rfl, ?_, ?_, ?_⟩ <;> exact fun _ absent => absurd absent List.not_mem_nil
  | append_singleton ranges range ih =>
    have collected := collected_foldl typeSymbols ranges
    have fewer : (ranges.map (·.key)).dedup.length ≤
        ((ranges ++ [range]).map (·.key)).dedup.length := by
      apply length_le_dedup (List.nodup_dedup _)
      intro key member
      rw [List.map_append]
      exact List.mem_append_left _ (List.mem_dedup.mp member)
    rw [List.length_append, List.length_singleton] at room
    rw [List.foldl_append]
    refine (ih (by omega) (Nat.le_trans fewer groupRoom)).add collected (by omega) ?_
    intro fresh
    have distinct : (range.key :: (ranges.foldl (CallSites.add typeSymbols)
        ⟨[], []⟩).groups.map (·.key)).Nodup := by
      rw [List.nodup_cons]
      refine ⟨?_, collected.distinct⟩
      intro member
      obtain ⟨group, inGroups, sameKey⟩ := List.mem_map.mp member
      obtain ⟨other, inRanges, same⟩ := collected.named group inGroups
      exact fresh other inRanges (same.trans sameKey)
    have counted := @length_le_dedup _ _ _ ((ranges ++ [range]).map (·.key)) distinct (by
      intro key member
      rw [List.map_append]
      rcases List.mem_cons.mp member with rfl | member
      · exact List.mem_append_right _ List.mem_cons_self
      · obtain ⟨group, inGroups, rfl⟩ := List.mem_map.mp member
        obtain ⟨other, inRanges, same⟩ := collected.named group inGroups
        exact List.mem_append_left _ (List.mem_map.mpr ⟨other, inRanges, same⟩))
    rw [List.length_cons, List.length_map] at counted
    omega

end DaveCC.Backend
