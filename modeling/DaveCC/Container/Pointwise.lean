import Mathlib.Data.List.Forall2

/-!
# Lists related pointwise

A fallible map over a list relates it pointwise to its result. Elements of lists that are
related pointwise, one list after another, have counterparts in all of them.
-/

namespace DaveCC.Container

universe u

variable {α β γ : Type u}

variable {values : List α}

/-- A fallible map succeeds exactly when it succeeds on every element. -/
theorem mapM_eq_some_iff {change : α → Option β} {results : List β} :
    values.mapM change = some results ↔
      List.Forall₂ (fun value result => change value = some result) values results := by
  induction values generalizing results with
  | nil =>
    rw [List.mapM_nil, List.forall₂_nil_left_iff]
    exact ⟨fun same => (Option.some.inj same).symm, fun same => congrArg some same.symm⟩
  | cons value values ih =>
    rw [List.mapM_cons, List.forall₂_cons_left_iff]
    simp only [Option.bind_eq_bind, Option.bind_eq_some_iff, Option.pure_def, Option.some.injEq]
    constructor
    · rintro ⟨result, found, rest, isRest, rfl⟩
      exact ⟨result, rest, found, ih.mp isRest, rfl⟩
    · rintro ⟨result, rest, found, isRest, rfl⟩
      exact ⟨result, found, rest, ih.mpr isRest, rfl⟩

variable {R : α → β → Prop} {S : β → γ → Prop} {T : α → γ → Prop}

variable {others : List β} {value : α}

/-- Pointwise related lists have related elements. -/
theorem exists_mem_related (related : List.Forall₂ R values others) (inside : value ∈ values) :
    ∃ other ∈ others, R value other := by
  induction related with
  | nil => cases inside
  | @cons first other values others same _ ih =>
    rcases List.mem_cons.mp inside with rfl | inside
    · exact ⟨other, List.mem_cons_self, same⟩
    · rcases ih inside with ⟨other, isOther, related⟩
      exact ⟨other, List.mem_cons_of_mem _ isOther, related⟩

variable {thirds : List γ}

/-- Three lists that are related pairwise are related elementwise. -/
theorem exists_related_chain (first : List.Forall₂ R values others)
    (second : List.Forall₂ S others thirds) (third : List.Forall₂ T values thirds)
    (inside : value ∈ values) :
    ∃ other result, R value other ∧ S other result ∧ T value result := by
  induction first generalizing thirds with
  | nil => cases inside
  | cons same _ ih =>
    cases second with
    | cons next nexts =>
      cases third with
      | cons whole wholes =>
        rcases List.mem_cons.mp inside with rfl | inside
        · exact ⟨_, _, same, next, whole⟩
        · exact ih nexts wholes inside

theorem forall₂_trans (first : List.Forall₂ R values others) (second : List.Forall₂ S others thirds)
    (compose : ∀ value other result, R value other → S other result → T value result) :
    List.Forall₂ T values thirds := by
  induction first generalizing thirds with
  | nil =>
    cases second
    exact .nil
  | cons same _ ih =>
    cases second with
    | cons next nexts => exact .cons (compose _ _ _ same next) (ih nexts)

/-- A step that exists for every related pair relates the lists onwards. -/
theorem exists_forall₂ (related : List.Forall₂ R values others)
    (step : ∀ value ∈ values, ∀ other, R value other → ∃ result, S other result ∧ T value result) :
    ∃ results, List.Forall₂ S others results ∧ List.Forall₂ T values results := by
  induction related with
  | nil => exact ⟨[], .nil, .nil⟩
  | cons same _ ih =>
    rw [List.forall_mem_cons] at step
    rcases step.1 _ same with ⟨result, next, whole⟩
    rcases ih step.2 with ⟨results, nexts, wholes⟩
    exact ⟨result :: results, .cons next nexts, .cons whole wholes⟩

end DaveCC.Container
