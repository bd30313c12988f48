import DaveCC.Optimization.CopyPropagation

/-!
# Soundness of copy propagation

The node that takes the place of a move or a load holds its value at every use, as long as
no other instruction that sets the same temporary, or that writes the variable of the
load, leads to the use. In SSA form the source itself does not, for its value is computed
once before the copy. What the pass does not look at are the shared temporaries.
-/

namespace DaveCC.Optimization

open DaveCC.Backend DaveCC.Container DaveCC.Graph DaveCC.Optimization.Sccp ActionGraph Generator CopyContext
open DaveCC.Optimization.Copies

/-- A function in SSA form, up to the temporaries that several instructions set. -/
structure CopyForm (gen : Generator) : Prop extends Placed gen where
  /-- A value is computed before it is used. -/
  dominates : ∀ user, ∀ input ∈ (gen.nodes user).inputs, isStanding gen input = false →
    gen.places.Dominates input user
  /-- The destination of a result is a temporary. -/
  temporary : ∀ id dest, (gen.nodes id).dest = some dest → (gen.nodes dest).opcode = .tmp

/-- At every use of the removed node, the source holds its value. -/
def HoldsAtUses {Value : Type*} (gen : Generator) (fixed : NodeId → Value)
    (start : CopyConfig Value) (removed source : NodeId) : Prop :=
  ∀ config user, Reaches gen fixed start config → gen.places.action config.place = some user →
    removed ∈ (gen.nodes user).inputs → ∃ value,
      operand gen fixed config.state source = some value ∧
        operand gen fixed config.state removed = some value

/-- Another instruction leaves its value where the source has its own. -/
def Shares (gen : Generator) (source writer : NodeId) : Prop :=
  isStanding gen writer = false ∧ writer ≠ source ∧ isFixed gen source = false ∧
    register gen writer = register gen source

/-- What the source has and what the load reads is not set again before it is used. -/
structure Undisturbed (context : CopyContext) (removed source : NodeId) : Prop where
  /-- An instruction that sets the temporary of the source leads to a use only through
  the removed node. -/
  uses : ∀ user writer, removed ∈ (context.gen.nodes user).inputs →
    Shares context.gen source writer → ¬ context.gen.places.LeadsFrom removed writer user
  /-- One that sets it or writes the variable leads to the load only through the store. -/
  load : ∀ version store symbol writer, (context.gen.nodes removed).opcode = .loada →
    (context.gen.nodes removed).inputs = [version] → context.pointerStores version = [store] →
    (context.gen.nodes version).symbol = some symbol →
    Shares context.gen source writer ∨
      (writer ≠ store ∧ writesVariable context.gen writer symbol = true) →
        ¬ context.gen.places.LeadsFrom store writer removed

variable {Value : Type*} {gen : Generator} {fixed : NodeId → Value} {context : CopyContext}
  {start before after : CopyConfig Value} {block : BlockId} {removed source id : NodeId}

/-- A step keeps the value of the source, or no way leads on from it without the
instruction that the source dominates. -/
theorem keeps_source {definer user : NodeId} (form : CopyForm gen)
    (begins : start.place = gen.places.entry)
    (sourceDominates : isStanding gen source = false → gen.places.Dominates source definer)
    (dominates : gen.places.Dominates definer user)
    (apart : ∀ writer, Shares gen source writer → ¬ gen.places.LeadsFrom definer writer user)
    (reaches : Reaches gen fixed start before) (step : Step gen fixed before after)
    (other : gen.places.action before.place ≠ some definer) :
    operand gen fixed after.state source = operand gen fixed before.state source ∨
      ¬ gen.places.Leads definer after.place user := by
  have reachable := reachable_of_run begins (fun _ _ step => Step.edge_places step) reaches
  have follows := step.edge_places
  cases step with
  | edge => exact Or.inl rfl
  | @instruction block id rest state next executes =>
    cases executes with
    | standing => exact Or.inl rfl
    | @evaluates _ value evaluated _ registers =>
      by_cases stays : isFixed gen source = true ∨ register gen id ≠ register gen source
      · exact Or.inl (operand_update registers stays)
      · right
        rw [not_or, not_not, Bool.not_eq_true] at stays
        by_cases same : id = source
        · rw [same] at other evaluated reachable follows
          have sourceNe : source ≠ definer := fun equal => other (congrArg some equal)
          exact (sourceDominates evaluated).not_leads
            (unambiguous_places form.toPlaced) dominates sourceNe reachable rfl
            follows
        · intro leads
          exact apart id ⟨evaluated, same, stays.1, stays.2⟩ ⟨_, _, reachable, rfl, follows, leads⟩

/-- What holds right behind the removed node holds at its uses. -/
theorem holdsAtUses_of_establishes (form : CopyForm gen) (begins : start.place = gen.places.entry)
    (evaluated : isStanding gen removed = false) (own : (gen.nodes removed).dest = none)
    (sourceDominates : isStanding gen source = false → gen.places.Dominates source removed)
    (apart : ∀ user writer, removed ∈ (gen.nodes user).inputs → Shares gen source writer →
      ¬ gen.places.LeadsFrom removed writer user)
    (establishes : ∀ before after, Reaches gen fixed start before →
      Step gen fixed before after → gen.places.action before.place = some removed →
      ∃ value, operand gen fixed after.state source = some value ∧
      operand gen fixed after.state removed = some value) :
    HoldsAtUses gen fixed start removed source := by
  intro config user reaches isNext uses
  have dominates := form.dominates user removed uses evaluated
  have registerOwn : register gen removed = removed := by
    unfold register
    rw [own]
    rfl
  apply dominates.holds begins (fun _ _ step => Step.edge_places step)
    (fun config => ∃ value, operand gen fixed config.state source = some value ∧
      operand gen fixed config.state removed = some value) establishes _ reaches isNext
  intro before after reaches step other holds
  rcases holds with ⟨value, hasSource, hasRemoved⟩
  have keepsRemoved : operand gen fixed after.state removed =
      operand gen fixed before.state removed := by
    cases step with
    | edge => rfl
    | @instruction block id rest state next executes =>
      cases executes with
      | standing => rfl
      | evaluates isEvaluated _ registers =>
        apply operand_update registers
        right
        rw [registerOwn]
        intro same
        unfold register at same
        cases isDest : (gen.nodes id).dest with
        | none =>
          rw [isDest] at same
          exact other (congrArg some same)
        | some dest =>
          rw [isDest] at same
          have isTemporary := form.temporary id dest isDest
          rw [show dest = removed from same] at isTemporary
          unfold isStanding at evaluated
          rw [isTemporary] at evaluated
          cases evaluated
  cases keeps_source form begins sourceDominates dominates (apart user · uses) reaches step
    other with
  | inl keeps =>
    left
    rw [keeps, keepsRemoved]
    exact ⟨value, hasSource, hasRemoved⟩
  | inr gone => exact Or.inr gone

/-- What `CanPropagateMove` asks of the move itself. -/
theorem exists_of_canPropagateMove (accepted : context.canPropagateMove removed = some source) :
    isMoveOpcode (context.gen.nodes removed).opcode = true ∧
      (context.gen.nodes removed).inputs = [source] ∧ (context.gen.nodes removed).dest = none := by
  unfold canPropagateMove at accepted
  dsimp only at accepted
  split at accepted
  next first user inputs _ =>
      split_ifs at accepted with unfit
      all_goals
        simp only [Bool.or_eq_true, Bool.not_eq_true', not_or, Bool.not_eq_false,
          Option.isSome_iff_ne_none, not_not] at unfit
        cases accepted
        exact ⟨unfit.1.1, inputs, unfit.1.2⟩
  next => cases accepted

theorem holdsAtUses_of_move (form : CopyForm context.gen)
    (begins : start.place = context.gen.places.entry)
    (accepted : context.canPropagateMove removed = some source)
    (undisturbed : Undisturbed context removed source) :
    HoldsAtUses context.gen fixed start removed source := by
  rcases exists_of_canPropagateMove accepted with ⟨isMove, inputs, own⟩
  have evaluated : isStanding context.gen removed = false := by
    unfold isStanding
    cases opcode : (context.gen.nodes removed).opcode <;> rw [opcode] at isMove <;>
      first | rfl | cases isMove
  apply holdsAtUses_of_establishes form begins evaluated own
    (form.dominates removed source (by rw [inputs]; exact List.mem_singleton_self source))
    undisturbed.uses
  intro before after _ step isNext
  cases step with
  | edge => cases isNext
  | @instruction block id rest state next executes =>
    cases isNext
    cases executes with
    | standing stands =>
      rw [evaluated] at stands
      cases stands
    | @evaluates _ value _ produces registers =>
      have copied := produces.move isMove source inputs
      exact ⟨value, operand_of_copy registers copied, operand_evaluated registers evaluated⟩

/-! ## Loads -/

/-- An element that is left when a list is dropped up to another one stands behind it. -/
theorem pair_sublist_of_mem_dropWhile {first second : NodeId} {whole : List NodeId}
    (apart : second ≠ first) (isLeft : second ∈ whole.dropWhile (· != first)) :
    [first, second].Sublist whole := by
  cases left : whole.dropWhile (· != first) with
  | nil =>
    rw [left] at isLeft
    cases isLeft
  | cons head rest =>
    have isFirst : head = first := by
      have isNonempty : whole.dropWhile (· != first) ≠ [] := by
        rw [left]
        simp
      have fails := List.head_dropWhile_not (· != first) isNonempty
      simpa [left] using fails
    rw [left, isFirst] at isLeft
    have inRest := List.mem_of_ne_of_mem apart isLeft
    have pair : [first, second].Sublist (head :: rest) := by
      rw [isFirst]
      exact (List.singleton_sublist.mpr inRest).cons_cons first
    rw [← left] at pair
    exact pair.trans (List.dropWhile_sublist _)

/-- What `PropagateSSALoad` finds for a load. -/
theorem exists_of_propagateSSALoad
    (accepted : context.propagateSSALoad block removed = some source) :
    (context.gen.nodes removed).opcode = .loada ∧ (context.gen.nodes removed).dest = none ∧
      ∃ version store symbol, (context.gen.nodes removed).inputs = [version] ∧
        (context.gen.nodes version).symbol = some symbol ∧
        isSafeSSASymbol (some symbol) = true ∧ context.pointerStores version = [store] ∧
        (context.gen.nodes store).opcode = .storea ∧
        (context.gen.nodes store).inputs = [version, source] ∧
        [store, removed].Sublist (context.gen.block block).instructions := by
  unfold propagateSSALoad at accepted
  dsimp only at accepted
  split at accepted
  next version inputs =>
      split_ifs at accepted with isOther unfit
      simp only [Bool.or_eq_true, bne_iff_ne, ne_eq, not_or, not_not, Option.isSome_iff_ne_none]
        at isOther
      simp only [Bool.or_eq_true, Bool.not_eq_true', not_or, Bool.not_eq_false] at unfit
      split at accepted
      next store stores =>
          have isStore : store ∈ context.pointerStores version := by
            rw [stores]
            exact List.mem_singleton_self store
          unfold pointerStores at isStore
          simp only [List.mem_filter, Bool.and_eq_true, beq_iff_eq] at isStore
          split at accepted
          next target value storeInputs =>
              split_ifs at accepted with apart _
              cases accepted
              simp only [Bool.or_eq_true, Bool.not_eq_true', not_or, Bool.not_eq_false] at apart
              unfold isSafeSSAVariable at unfit
              simp only [Bool.and_eq_true, beq_iff_eq] at unfit
              have isTarget : target = version := by
                have head := isStore.2.2
                rw [storeInputs] at head
                exact Option.some.inj head
              have differ : removed ≠ store := by
                intro same
                have isStorea := isStore.2.1.1
                rw [← same, isOther.1] at isStorea
                cases isStorea
              have behind := apart.1.2
              unfold precedesInBlock at behind
              rw [List.contains_iff_mem] at behind
              cases hasSymbol : (context.gen.nodes version).symbol with
              | none =>
                rw [hasSymbol] at unfit
                exact absurd unfit.1.1.2 Bool.false_ne_true
              | some symbol =>
                rw [hasSymbol] at unfit
                refine ⟨isOther.1, isOther.2, version, store, symbol, inputs, hasSymbol,
                  unfit.1.1.2, stores, isStore.2.1.1, ?_, ?_⟩
                · rw [storeInputs, isTarget]
                · exact pair_sublist_of_mem_dropWhile differ behind
          next => cases accepted
      next => cases accepted
  next => cases accepted

/-- When the load comes next, the variable holds the value of the source. -/
theorem holds_before_load {version store : NodeId} {symbol : Symbol} (form : CopyForm context.gen)
    (begins : start.place = context.gen.places.entry)
    (undisturbed : Undisturbed context removed source)
    (isLoad : (context.gen.nodes removed).opcode = .loada)
    (inputs : (context.gen.nodes removed).inputs = [version])
    (hasSymbol : (context.gen.nodes version).symbol = some symbol)
    (safe : isSafeSSASymbol (some symbol) = true)
    (stores : context.pointerStores version = [store])
    (isStore : (context.gen.nodes store).opcode = .storea)
    (storeInputs : (context.gen.nodes store).inputs = [version, source])
    (precedes : [store, removed].Sublist (context.gen.block block).instructions)
    (reaches : Reaches context.gen fixed start after)
    (isNext : context.gen.places.action after.place = some removed) :
    ∃ value, after.state.contents symbol.id = some value ∧
      operand context.gen fixed after.state source = some value := by
  have dominates := dominates_of_precedes form.toPlaced precedes
  have disturbs : ∀ writer, Shares context.gen source writer ∨ (writer ≠ store ∧
      writesVariable context.gen writer symbol = true) →
        ¬ context.gen.places.LeadsFrom store writer removed :=
    fun writer => undisturbed.load version store symbol writer isLoad inputs stores hasSymbol
  have sourceDominates : isStanding context.gen source = false →
      context.gen.places.Dominates source store :=
    form.dominates store source (by rw [storeInputs]; simp)
  have evaluated : isStanding context.gen store = false := by
    unfold isStanding
    rw [isStore]
    rfl
  apply dominates.holds begins (fun _ _ step => Step.edge_places step)
    (fun config => ∃ value, config.state.contents symbol.id = some value ∧
      operand context.gen fixed config.state source = some value) _ _ reaches isNext
  · intro before after reaches step isNext
    have reachable := reachable_of_run begins (fun _ _ step => Step.edge_places step) reaches
    have follows := step.edge_places
    cases step with
    | edge => cases isNext
    | @instruction current id rest state next executes =>
      cases isNext
      cases executes with
      | standing stands =>
        rw [evaluated] at stands
        cases stands
      | @evaluates _ result _ _ registers changes =>
        rcases changes.stored isStore version source symbol storeInputs hasSymbol safe with
          ⟨value, hasValue, isStored⟩
        refine ⟨value, isStored, ?_⟩
        rw [operand_update registers, hasValue]
        -- a store that sets the temporary of its own source would disturb the load
        by_contra stays
        rw [not_or, not_not, Bool.not_eq_true] at stays
        by_cases same : store = source
        · have itself := sourceDominates (same ▸ evaluated)
          rw [← same] at itself
          exact itself.irrefl reachable rfl
        · apply disturbs store (Or.inl ⟨evaluated, same, stays.1, stays.2⟩)
          have isEnd := rest_suffix reachable
          have isBlock : current = block :=
            form.once current block store (isEnd.subset (List.mem_cons_self ..))
              (precedes.subset (by simp))
          have nodup := form.nodup block
          rw [isBlock] at isEnd
          rcases isEnd with ⟨front, split⟩
          rw [← split] at nodup precedes
          have unique := List.nodup_cons.mp nodup.of_append_right
          have isLeft : removed ∈ rest := mem_back_of_pair_sublist nodup precedes
          exact ⟨_, _, reachable, rfl, follows, leads_of_mem isLeft unique.1⟩
  · intro before after reaches step other holds
    rcases holds with ⟨value, isStored, hasSource⟩
    cases keeps_source form begins sourceDominates dominates
        (fun writer shares => disturbs writer (Or.inl shares)) reaches step other with
    | inr gone => exact Or.inr gone
    | inl keeps =>
      have reachable := reachable_of_run begins (fun _ _ step => Step.edge_places step) reaches
      have follows := step.edge_places
      rw [← keeps] at hasSource
      cases step with
      | edge => exact Or.inl ⟨value, isStored, hasSource⟩
      | @instruction current id rest state next executes =>
        cases executes with
        | standing => exact Or.inl ⟨value, isStored, hasSource⟩
        | @evaluates _ result _ _ _ changes =>
          cases writes : writesVariable context.gen id symbol with
          | false =>
            left
            refine ⟨value, ?_, hasSource⟩
            rw [changes.kept symbol safe writes]
            exact isStored
          | true =>
            right
            intro leads
            have differs : id ≠ store := fun same => other (congrArg some same)
            exact disturbs id (Or.inr ⟨differs, writes⟩) ⟨_, _, reachable, rfl, follows, leads⟩

theorem holdsAtUses_of_load (form : CopyForm context.gen)
    (begins : start.place = context.gen.places.entry)
    (accepted : context.propagateSSALoad block removed = some source)
    (undisturbed : Undisturbed context removed source) :
    HoldsAtUses context.gen fixed start removed source := by
  rcases exists_of_propagateSSALoad accepted with ⟨isLoad, own, version, store, symbol, inputs,
    hasSymbol, safe, stores, isStore, storeInputs, precedes⟩
  have evaluated : isStanding context.gen removed = false := by
    unfold isStanding
    rw [isLoad]
    rfl
  have dominates := dominates_of_precedes form.toPlaced precedes
  have sourceDominates : isStanding context.gen source = false →
      context.gen.places.Dominates source removed := by
    intro isEvaluated
    exact (form.dominates store source (by rw [storeInputs]; simp) isEvaluated).trans dominates
  apply holdsAtUses_of_establishes form begins evaluated own sourceDominates undisturbed.uses
  intro before after reaches step isNext
  rcases holds_before_load form begins undisturbed isLoad inputs hasSymbol safe stores isStore
    storeInputs precedes reaches isNext with ⟨value, isStored, hasSource⟩
  cases step with
  | edge => cases isNext
  | @instruction current id rest state next executes =>
    cases isNext
    cases executes with
    | standing stands =>
      rw [evaluated] at stands
      cases stands
    | @evaluates _ result _ produces registers =>
      have loaded := produces.load isLoad version symbol inputs hasSymbol safe
      cases Option.some.inj (isStored.symm.trans loaded)
      refine ⟨value, ?_, operand_evaluated registers evaluated⟩
      exact operand_of_copy registers hasSource

def mergeType : TypeRecord where
  declarator := .primitive
  type := kTypeInt
  size := 4

/-- A sum in the temporary `2`, a move of it, another sum with the destination, and the
result of the function, which is the move. -/
def mergeNode (dest : Option NodeId) : NodeId → IRNode
  | 0 => { opcode := .const32, ivalue := 1 }
  | 1 => { opcode := .const32, ivalue := 2 }
  | 2 => { opcode := .tmp }
  | 3 => { opcode := .addi, inputs := [0, 0], outputs := [4], type := some mergeType,
           dest := some 2 }
  | 4 => { opcode := .movi, inputs := [3], outputs := [6], type := some mergeType }
  | 5 => { opcode := .addi, inputs := [1, 1], type := some mergeType, dest }
  | 6 => { opcode := .resulti, inputs := [4] }
  | _ => { opcode := .ret }

def mergeContext (dest : Option NodeId) : CopyContext where
  gen :=
    { nodes := mergeNode dest
      basicBlocks := [{ instructions := [2, 3, 4, 5, 6, 7] }]
      entryBlock := 0 }
  hasExceptionRanges := false
  symbolName := fun _ => ""
  typeEqual := fun left right => left == right

def mergeStart : CopyConfig Nat where
  place := (0, [2, 3, 4, 5, 6, 7])
  state := { registers := fun _ => none, contents := fun _ => none }

theorem placed_mergeContext (dest : Option NodeId) : Placed (mergeContext dest).gen := by
  constructor
  · intro block
    cases block with
    | zero => exact (by decide : [2, 3, 4, 5, 6, 7].Nodup)
    | succ => exact List.nodup_nil
  · intro first second id inFirst inSecond
    cases first with
    | zero =>
      cases second with
      | zero => rfl
      | succ => cases inSecond
    | succ => cases inFirst

theorem copyForm_mergeContext {dest : Option NodeId} (isMerge : dest = none ∨ dest = some 2) :
    CopyForm (mergeContext dest).gen := by
  have placed := placed_mergeContext dest
  have order : ∀ first second : NodeId,
      [first, second].Sublist ((mergeContext dest).gen.block 0).instructions →
        (mergeContext dest).gen.places.Dominates first second :=
    fun first second precedes => dominates_of_precedes placed precedes
  refine ⟨placed, ?_, ?_⟩
  · intro user input isInput evaluated
    change input ∈ (mergeNode dest user).inputs at isInput
    unfold mergeNode at isInput
    split at isInput
    case h_4 | h_6 =>
        simp only [List.mem_cons, List.not_mem_nil, or_false, or_self] at isInput
        rw [isInput] at evaluated
        cases evaluated
    case h_5 =>
        rw [List.mem_singleton.mp isInput]
        exact order 3 4 (by decide : [3, 4].Sublist [2, 3, 4, 5, 6, 7])
    case h_7 =>
        rw [List.mem_singleton.mp isInput]
        exact order 4 6 (by decide : [4, 6].Sublist [2, 3, 4, 5, 6, 7])
    all_goals cases isInput
  · intro id temporary isDest
    change (mergeNode dest id).dest = some temporary at isDest
    have isTwo : temporary = 2 := by
      unfold mergeNode at isDest
      split at isDest
      case h_4 => exact (Option.some.inj isDest).symm
      case h_6 =>
          cases isMerge with
          | inl isNone =>
            rw [isNone] at isDest
            cases isDest
          | inr isSome =>
            rw [isSome] at isDest
            exact (Option.some.inj isDest).symm
      all_goals cases isDest
    rw [isTwo]
    rfl

/-- The temporary is set once. -/
theorem undisturbed_mergeContext : Undisturbed (mergeContext none) 4 3 := by
  constructor
  · intro user writer _ shares
    rcases shares with ⟨evaluated, apart, _, same⟩
    change (mergeNode none writer).dest.getD writer = 2 at same
    unfold mergeNode at same
    split at same
    case h_4 => exact absurd rfl apart
    case h_3 => cases evaluated
    all_goals simp_all
  · intro version store symbol writer isLoad
    cases isLoad

end DaveCC.Optimization
