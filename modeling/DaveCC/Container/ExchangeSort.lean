import Mathlib.Data.List.Perm.Basic

/-!
# Partition by exchange

A pass over an array from its first element of the second kind that exchanges every later
element of the first kind with the first one of the second kind. The elements of the first
kind keep their order; those of the second kind follow them in some order.
-/

namespace DaveCC.Container

variable {α : Type*}

/-- Two elements of an array exchanged. -/
def exchange (values : List α) (left right : Nat) : List α :=
  match values[left]?, values[right]? with
  | some first, some second => (values.set left second).set right first
  | _, _ => values

/-- One element of the pass. The boundary is the place of the first element of the second
kind. -/
def partitionStep (isFirst : α → Bool) (state : List α × Nat) (index : Nat) : List α × Nat :=
  match state.1[index]? with
  | some value =>
    if isFirst value then (exchange state.1 index state.2, state.2 + 1) else state
  | none => state

/-- The pass over the elements after the boundary. -/
def partitionFrom (isFirst : α → Bool) (values : List α) (boundary : Nat) : List α × Nat :=
  (List.range' (boundary + 1) (values.length - (boundary + 1))).foldl (partitionStep isFirst)
    (values, boundary)

variable {isFirst : α → Bool}

theorem exchange_split (before middle after : List α) (left right : α) :
    exchange (before ++ left :: (middle ++ right :: after)) (before.length + 1 + middle.length)
        before.length =
      before ++ right :: (middle ++ left :: after) := by
  have reassociated : before ++ left :: (middle ++ right :: after) =
      (before ++ left :: middle) ++ right :: after := by
    simp
  have length : (before ++ left :: middle).length = before.length + 1 + middle.length := by
    simp only [List.length_append, List.length_cons]
    omega
  have atRight : (before ++ left :: (middle ++ right :: after))[before.length + 1 +
      middle.length]? = some right := by
    rw [reassociated, ← length, List.getElem?_append_right (Nat.le_refl _), Nat.sub_self,
      List.getElem?_cons_zero]
  have atLeft : (before ++ left :: (middle ++ right :: after))[before.length]? = some left := by
    rw [List.getElem?_append_right (Nat.le_refl _), Nat.sub_self, List.getElem?_cons_zero]
  rw [exchange, atRight, atLeft]
  simp only
  rw [reassociated, ← length, List.set_append_right _ _ (Nat.le_refl _), Nat.sub_self, List.set_cons_zero,
    List.append_assoc, List.cons_append, List.set_append_right _ _ (Nat.le_refl _), Nat.sub_self,
    List.set_cons_zero]

/-- What the pass makes of the elements that it has not seen yet. -/
theorem foldl_partitionStep (isFirst : α → Bool) (before seconds rest : List α) (nonempty : seconds ≠ []) :
    ∃ others, others.Perm (seconds ++ rest.filter fun value => !isFirst value) ∧
      (List.range' (before.length + seconds.length) rest.length).foldl (partitionStep isFirst)
          (before ++ (seconds ++ rest), before.length) =
        (before ++ rest.filter isFirst ++ others, (before ++ rest.filter isFirst).length) := by
  induction rest generalizing before seconds with
  | nil =>
    refine ⟨seconds, ?_, ?_⟩
    · rw [List.filter_nil, List.append_nil]
    · simp
  | cons value rest ih =>
    have seen : (before ++ (seconds ++ value :: rest))[before.length + seconds.length]? =
        some value := by
      rw [← List.append_assoc, ← List.length_append, List.getElem?_append_right (Nat.le_refl _),
        Nat.sub_self, List.getElem?_cons_zero]
    rw [List.length_cons, List.range'_succ, List.foldl_cons, partitionStep, seen]
    simp only
    cases kind : isFirst value with
    | true =>
      obtain ⟨second, middle, rfl⟩ := List.exists_cons_of_ne_nil nonempty
      obtain ⟨others, perm, folded⟩ := ih (before ++ [value]) (middle ++ [second]) (by simp)
      refine ⟨others, ?_, ?_⟩
      · apply perm.trans
        rw [List.filter_cons_of_neg (by simpa using kind)]
        exact (List.perm_append_singleton second middle).append_right _
      · have exchanged := exchange_split before middle rest second value
        rw [List.length_cons, if_pos rfl, List.filter_cons_of_pos kind]
        rw [show before.length + 1 + middle.length = before.length + (middle.length + 1) by
          omega] at exchanged
        simp only [List.length_append, List.length_cons, List.length_nil, List.append_assoc,
          List.cons_append, List.nil_append] at folded ⊢
        rw [← folded]
        congr 2
        omega
    | false =>
      obtain ⟨others, perm, folded⟩ := ih before (seconds ++ [value]) (by simp)
      refine ⟨others, ?_, ?_⟩
      · rw [List.filter_cons_of_pos (by simpa using kind)]
        simpa only [List.append_assoc, List.singleton_append] using perm
      · rw [if_neg Bool.false_ne_true, List.filter_cons_of_neg (ne_true_of_eq_false kind)]
        simp only [List.length_append, List.length_cons, List.length_nil, List.append_assoc,
          List.cons_append, List.nil_append] at folded ⊢
        congr 2

/-- The whole pass: the elements of the first kind move before those of the second. -/
theorem partitionFrom_split (before rest : List α) (second : α) (isSecond : isFirst second = false) :
    ∃ others, others.Perm ((second :: rest).filter fun value => !isFirst value) ∧
      partitionFrom isFirst (before ++ second :: rest) before.length =
        (before ++ rest.filter isFirst ++ others, (before ++ rest.filter isFirst).length) := by
  obtain ⟨others, perm, folded⟩ :=
    foldl_partitionStep isFirst before [second] rest (List.cons_ne_nil _ _)
  refine ⟨others, ?_, ?_⟩
  · rw [List.filter_cons_of_pos (by simpa using isSecond)]
    exact perm
  · rw [← folded, partitionFrom]
    congr 2
    simp only [List.length_append, List.length_cons]
    omega

end DaveCC.Container

/-!
## Sorting by exchange

Two nested loops over an array: an element is exchanged with every later one that is less than
what is then in its place. After a round the least of the remaining elements is in the place
of the round.
-/

namespace DaveCC.Container

variable {α : Type*}

/-- One comparison of the inner loop. -/
def exchangeStep (less : α → α → Bool) (place : Nat) (values : List α) (other : Nat) : List α :=
  match values[other]?, values[place]? with
  | some later, some earlier => if less later earlier then exchange values other place else values
  | _, _ => values

/-- The inner loop. -/
def exchangeRound (less : α → α → Bool) (values : List α) (place : Nat) : List α :=
  (List.range' (place + 1) (values.length - (place + 1))).foldl (exchangeStep less place) values

/-- The outer loop. -/
def exchangeSort (less : α → α → Bool) (values : List α) : List α :=
  (List.range values.length).foldl (exchangeRound less) values

variable {less : α → α → Bool}
  (trans : ∀ first second third, less first second = true → less second third = true →
    less first third = true)
  (asymm : ∀ first second, less first second = true → less second first = false)

theorem exchangeStep_split (before middle after : List α) (first second : α) :
    exchangeStep less before.length (before ++ first :: (middle ++ second :: after))
        (before.length + 1 + middle.length) =
      if less second first then before ++ second :: (middle ++ first :: after)
      else before ++ first :: (middle ++ second :: after) := by
  have there : (before ++ first :: (middle ++ second :: after))[before.length + 1 +
      middle.length]? = some second := by
    rw [List.getElem?_append_right (by omega), Nat.add_assoc, Nat.add_sub_cancel_left,
      Nat.add_comm, List.getElem?_cons_succ, List.getElem?_append_right (Nat.le_refl _),
      Nat.sub_self, List.getElem?_cons_zero]
  have here : (before ++ first :: (middle ++ second :: after))[before.length]? = some first := by
    rw [List.getElem?_append_right (Nat.le_refl _), Nat.sub_self, List.getElem?_cons_zero]
  rw [exchangeStep, there, here]
  rw [exchange_split]

include trans asymm

/-- What the inner loop makes of the elements that it has not compared yet. -/
theorem foldl_exchangeStep (before middle rest : List α) (first : α)
    (least : ∀ value ∈ middle, less value first = false) :
    ∃ least others, (least :: others).Perm (first :: (middle ++ rest)) ∧
      (∀ value ∈ others, less value least = false) ∧
      (List.range' (before.length + 1 + middle.length) rest.length).foldl
          (exchangeStep less before.length) (before ++ first :: (middle ++ rest)) =
        before ++ least :: others := by
  induction rest generalizing first middle with
  | nil =>
    refine ⟨first, middle, ?_, least, ?_⟩
    · rw [List.append_nil]
    · rw [List.length_nil, List.range'_zero, List.foldl_nil, List.append_nil]
  | cons second rest ih =>
    rw [List.length_cons, List.range'_succ, List.foldl_cons, exchangeStep_split]
    cases isLess : less second first with
    | true =>
      have stillLeast : ∀ value ∈ middle ++ [first], less value second = false := by
        intro value member
        rcases List.mem_append.mp member with inMiddle | isFirst
        · by_contra lesser
          have lesser := trans _ _ _ (eq_true_of_ne_false lesser) isLess
          rw [least value inMiddle] at lesser
          cases lesser
        · rw [List.mem_singleton.mp isFirst]
          exact asymm _ _ isLess
      obtain ⟨result, others, perm, isLeast, folded⟩ := ih (middle ++ [first]) second stillLeast
      refine ⟨result, others, perm.trans ?_, isLeast, ?_⟩
      · rw [List.append_assoc, List.singleton_append]
        exact (List.perm_middle.cons second).trans
          ((List.Perm.swap _ _ _).trans (List.perm_middle.symm.cons first))
      · rw [if_pos rfl]
        simp only [List.length_append, List.length_cons, List.length_nil, List.append_assoc,
          List.cons_append, List.nil_append] at folded
        exact folded
    | false =>
      have stillLeast : ∀ value ∈ middle ++ [second], less value first = false := by
        intro value member
        rcases List.mem_append.mp member with inMiddle | isSecond
        · exact least value inMiddle
        · rw [List.mem_singleton.mp isSecond]
          exact isLess
      obtain ⟨result, others, perm, isLeast, folded⟩ := ih (middle ++ [second]) first stillLeast
      refine ⟨result, others, ?_, isLeast, ?_⟩
      · rwa [List.append_assoc, List.singleton_append] at perm
      · rw [if_neg Bool.false_ne_true]
        simp only [List.length_append, List.length_cons, List.length_nil, List.append_assoc,
          List.cons_append, List.nil_append] at folded
        exact folded

/-- A round puts the least of the remaining elements into its place. -/
theorem exchangeRound_split (before rest : List α) (first : α) :
    ∃ least others, (least :: others).Perm (first :: rest) ∧
      (∀ value ∈ others, less value least = false) ∧
      exchangeRound less (before ++ first :: rest) before.length = before ++ least :: others := by
  obtain ⟨least, others, perm, isLeast, folded⟩ :=
    foldl_exchangeStep trans asymm before [] rest first (fun _ absent => by cases absent)
  refine ⟨least, others, perm, isLeast, ?_⟩
  rw [← folded, exchangeRound]
  congr 2
  simp only [List.length_append, List.length_cons]
  omega

/-- The rounds from a place on sort what is there. -/
theorem foldl_exchangeRound (before rest : List α) :
    ∃ sorted, sorted.Perm rest ∧ (sorted.Pairwise fun first second => less second first = false) ∧
      (List.range' before.length rest.length).foldl (exchangeRound less) (before ++ rest) =
        before ++ sorted := by
  induction length : rest.length generalizing before rest with
  | zero =>
    rw [List.length_eq_zero_iff] at length
    exact ⟨[], by rw [length], .nil, by rw [length]; rfl⟩
  | succ count ih =>
    obtain ⟨first, rest, rfl⟩ := List.exists_cons_of_length_eq_add_one length
    obtain ⟨least, others, perm, isLeast, round⟩ :=
      exchangeRound_split trans asymm before rest first
    have shorter : others.length = count := by
      have same := perm.length_eq
      rw [length, List.length_cons] at same
      omega
    obtain ⟨sorted, sortedPerm, ordered, folded⟩ := ih (before ++ [least]) others shorter
    refine ⟨least :: sorted, (sortedPerm.cons least).trans perm, ?_, ?_⟩
    · exact List.pairwise_cons.mpr
        ⟨fun value member => isLeast value (sortedPerm.mem_iff.mp member), ordered⟩
    · rw [List.range'_succ, List.foldl_cons, round]
      simp only [List.length_append, List.length_cons, List.length_nil, List.append_assoc,
        List.cons_append, List.nil_append] at folded
      exact folded

/-- The loops sort. -/
theorem exchangeSort_sorts (values : List α) :
    (exchangeSort less values).Perm values ∧
      (exchangeSort less values).Pairwise fun first second => less second first = false := by
  obtain ⟨sorted, perm, ordered, folded⟩ := foldl_exchangeRound trans asymm [] values
  have result : exchangeSort less values = sorted := by
    rw [exchangeSort, List.range_eq_range']
    exact folded
  rw [result]
  exact ⟨perm, ordered⟩

end DaveCC.Container
