import Mathlib.Data.Nat.Notation
import Mathlib.Tactic.SplitIfs

/-!
# Rules for loops

A `while` loop as a function: it runs its body while the condition holds, for at
most `fuel` iterations. The body may itself fail to return. A measure that the
body decreases gives a bound on the fuel. A loop over a list is a fold, and its
invariant speaks of the items already done.
-/

namespace DaveCC.Loop

variable {State : Type*}

/-- Run `body` while `condition` holds. The result is absent when the body's is, or
when the fuel does not suffice. -/
def runWhile (condition : State → Bool) (body : State → Option State) :
    ℕ → State → Option State
  | fuel, state =>
    if condition state then
      match fuel with
      | 0 => none
      | fuel + 1 => (body state).bind (runWhile condition body fuel)
    else some state

variable {condition : State → Bool} {body : State → Option State}

variable {fuel : ℕ} {state : State}

theorem runWhile_of_not (done : condition state = false) :
    runWhile condition body fuel state = some state := by
  unfold runWhile
  simp [done]

theorem runWhile_succ {next : State} (continues : condition state = true)
    (steps : body state = some next) :
    runWhile condition body (fuel + 1) state = runWhile condition body fuel next := by
  conv => lhs; unfold runWhile
  simp [continues, steps]

/-- The rule of total correctness: a body that keeps the invariant and decreases
the measure makes the loop return, in a state of the invariant where the condition
fails. -/
theorem exists_runWhile (Invariant : State → Prop) (measure : State → ℕ)
    (preserves : ∀ state, Invariant state → condition state = true →
      ∃ next, body state = some next ∧ Invariant next ∧ measure next < measure state)
    {fuel : ℕ} {state : State} (start : Invariant state) (enough : measure state ≤ fuel) :
    ∃ final, runWhile condition body fuel state = some final ∧
      Invariant final ∧ condition final = false := by
  induction fuel generalizing state with
  | zero =>
    cases continues : condition state with
    | false => exact ⟨state, runWhile_of_not continues, start, continues⟩
    | true =>
      rcases preserves state start continues with ⟨_, _, _, smaller⟩
      omega
  | succ fuel returns =>
    cases continues : condition state with
    | false => exact ⟨state, runWhile_of_not continues, start, continues⟩
    | true =>
      rcases preserves state start continues with ⟨next, steps, holds, smaller⟩
      rw [runWhile_succ continues steps]
      exact returns holds (by omega)

variable {final : State}

/-- The rule of partial correctness. -/
theorem runWhile_induct (Invariant : State → Prop) (preserves : ∀ state next, Invariant state →
      condition state = true → body state = some next → Invariant next) (start : Invariant state)
    (returns : runWhile condition body fuel state = some final) :
    Invariant final ∧ condition final = false := by
  induction fuel generalizing state with
  | zero =>
    unfold runWhile at returns
    split_ifs at returns with continues
    cases returns
    exact ⟨start, Bool.not_eq_true _ ▸ continues⟩
  | succ fuel ih =>
    unfold runWhile at returns
    split_ifs at returns with continues
    · obtain ⟨next, steps, returns⟩ := Option.bind_eq_some_iff.mp returns
      exact ih (preserves state next start continues steps) returns
    · cases returns
      exact ⟨start, Bool.not_eq_true _ ▸ continues⟩

variable {Item : Type*}

variable {step : State → Item → Option State} {items : List Item}

/-- The rule for a loop over a list whose body may fail to return. -/
theorem exists_foldlM (Invariant : List Item → State → Prop) (preserves : ∀ front item back state,
      items = front ++ item :: back → Invariant front state → ∃ next, step state item = some next ∧
      Invariant (front ++ [item]) next) (start : Invariant [] state) :
    ∃ final, items.foldlM step state = some final ∧ Invariant items final := by
  suffices rest : ∀ front back state, items = front ++ back → Invariant front state →
      ∃ final, back.foldlM step state = some final ∧ Invariant items final from
    rest [] items state rfl start
  intro front back
  induction back generalizing front with
  | nil =>
    intro state split holds
    rw [List.append_nil] at split
    exact ⟨state, rfl, split ▸ holds⟩
  | cons item back ih =>
    intro state split holds
    rcases preserves front item back state split holds with ⟨next, steps, holds⟩
    rw [List.foldlM_cons, steps]
    apply ih (front ++ [item]) next _ holds
    rw [split, List.append_assoc, List.singleton_append]

/-- The rule of partial correctness for a loop over a list. -/
theorem foldlM_induct (Invariant : List Item → State → Prop)
    (preserves : ∀ front item back state next, items = front ++ item :: back →
      Invariant front state → step state item = some next → Invariant (front ++ [item]) next)
    (start : Invariant [] state) (returns : items.foldlM step state = some final) :
    Invariant items final := by
  suffices rest : ∀ front back state, items = front ++ back → Invariant front state →
      back.foldlM step state = some final → Invariant items final from
    rest [] items state rfl start returns
  intro front back
  induction back generalizing front with
  | nil =>
    intro state split holds returns
    rw [List.append_nil] at split
    cases returns
    exact split ▸ holds
  | cons item back ih =>
    intro state split holds returns
    rcases Option.bind_eq_some_iff.mp returns with ⟨next, steps, returns⟩
    apply ih (front ++ [item]) next _ _ returns
    · rw [split, List.append_assoc, List.singleton_append]
    · exact preserves front item back state next split holds steps

/-- Two loops over a list whose bodies agree by way of a view of the state. -/
theorem foldlM_map {View : Type*} {viewStep : View → Item → Option View} (view : State → View)
    (agrees : ∀ state, ∀ item ∈ items, viewStep (view state) item = (step state item).map view)
    (state : State) : items.foldlM viewStep (view state) = (items.foldlM step state).map view := by
  induction items generalizing state with
  | nil => rfl
  | cons item rest ih =>
    rw [List.foldlM_cons, List.foldlM_cons, agrees state item List.mem_cons_self]
    cases step state item with
    | none => rfl
    | some next => exact ih (fun state item inside => agrees state item (.tail _ inside)) next

/-- The rule for a loop over a list. -/
theorem foldl_induct {step : State → Item → State} (Invariant : List Item → State → Prop)
    (preserves : ∀ front item back state, items = front ++ item :: back →
      Invariant front state → Invariant (front ++ [item]) (step state item))
    (start : Invariant [] state) :
    Invariant items (items.foldl step state) := by
  have ⟨final, returns, holds⟩ := @exists_foldlM State state Item
    (fun state item => some (step state item)) items Invariant (fun front item back state split holds =>
      ⟨_, rfl, preserves front item back state split holds⟩) start
  cases List.foldlM_pure.symm.trans returns
  exact holds

end DaveCC.Loop
