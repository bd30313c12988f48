import Mathlib.Logic.Relation

/-!
# Facts that an action establishes

A graph of places, each with the action that comes next there. An action dominates another
one when no way leads from the entry to the other without it. What a dominating action
establishes holds whenever the dominated one comes next, unless an action that destroys it
can be followed by the dominated one without the dominating one in between.
-/

namespace DaveCC.Graph

open Relation

/-- Places, with the action that comes next in each. -/
structure ActionGraph (Place Action : Type*) where
  edge : Place → Place → Prop
  action : Place → Option Action
  entry : Place

namespace ActionGraph

variable {Place Action : Type*} {graph : ActionGraph Place Action}
  {source target : Place} {first second avoided : Action}

/-- A run gets to the place. -/
def Reachable (graph : ActionGraph Place Action) (place : Place) : Prop :=
  ReflTransGen graph.edge graph.entry place

/-- An edge that does not perform the action. -/
def Without (graph : ActionGraph Place Action) (avoided : Action) (source target : Place) : Prop :=
  graph.edge source target ∧ graph.action source ≠ some avoided

/-- Some way leads to an action without the avoided one. -/
def Leads (graph : ActionGraph Place Action) (avoided : Action) (source : Place)
    (sought : Action) : Prop :=
  ∃ target, ReflTransGen (graph.Without avoided) source target ∧ graph.action target = some sought

/-- Every way to the second action performs the first one. -/
def Dominates (graph : ActionGraph Place Action) (first second : Action) : Prop :=
  ¬ graph.Leads first graph.entry second

/-- Some way leads from behind the first action to the second one without the avoided
one. -/
def LeadsFrom (graph : ActionGraph Place Action) (avoided first second : Action) : Prop :=
  ∃ source next, graph.Reachable source ∧ graph.action source = some first ∧
    graph.edge source next ∧ graph.Leads avoided next second

/-- An action comes next in one place only. -/
def Unambiguous (graph : ActionGraph Place Action) : Prop :=
  ∀ first second action, graph.Reachable first → graph.Reachable second →
    graph.action first = some action → graph.action second = some action → first = second

theorem Leads.step (follows : graph.edge source target)
    (apart : graph.action source ≠ some avoided) (leads : graph.Leads avoided target second) :
    graph.Leads avoided source second := by
  cases leads with
  | intro place way => exact ⟨place, .head ⟨follows, apart⟩ way.1, way.2⟩

theorem Leads.trans (way : ReflTransGen (graph.Without avoided) source target)
    (leads : graph.Leads avoided target second) : graph.Leads avoided source second := by
  cases leads with
  | intro place onwards => exact ⟨place, way.trans onwards.1, onwards.2⟩

theorem Reachable.of_without (way : ReflTransGen (graph.Without avoided) graph.entry target) :
    graph.Reachable target :=
  way.lift id fun _ _ step => step.1

/-- A way performs an action, or it avoids it. -/
theorem exists_first (restricted : Place → Place → Prop)
    (way : ReflTransGen restricted source target) (avoided : Action) :
    ReflTransGen (fun origin next => restricted origin next ∧ graph.action origin ≠ some avoided)
        source target ∨
      ∃ place, graph.action place = some avoided ∧
        ReflTransGen (fun origin next => restricted origin next ∧
          graph.action origin ≠ some avoided) source place := by
  induction way with
  | refl => exact Or.inl .refl
  | @tail middle next _ step ih =>
    cases ih with
    | inl avoids =>
      by_cases performs : graph.action middle = some avoided
      · exact Or.inr ⟨middle, performs, avoids⟩
      · exact Or.inl (avoids.tail ⟨step, performs⟩)
    | inr found => exact Or.inr found

/-- Before the second action, a way comes to the first one. -/
theorem Dominates.exists_before (dominates : graph.Dominates first second)
    (restricted : Place → Place → Prop)
    (within : ∀ source target, restricted source target → graph.edge source target)
    (way : ReflTransGen restricted graph.entry target)
    (isNext : graph.action target = some second) :
    ∃ place, graph.action place = some first ∧ ReflTransGen restricted graph.entry place := by
  cases exists_first restricted way first with
  | inl avoids =>
    have leads : graph.Leads first graph.entry second :=
      ⟨target, avoids.lift id fun _ _ step => ⟨within _ _ step.1, step.2⟩, isNext⟩
    exact absurd leads dominates
  | inr found =>
    rcases found with ⟨place, performs, before⟩
    exact ⟨place, performs, before.lift id fun _ _ step => step.1⟩

/-- No action that is reached dominates itself. -/
theorem Dominates.irrefl (dominates : graph.Dominates first first)
    (reachable : graph.Reachable target) (isNext : graph.action target = some first) : False := by
  cases exists_first graph.edge reachable first with
  | inl avoids => exact dominates ⟨target, avoids, isNext⟩
  | inr found =>
    rcases found with ⟨place, performs, before⟩
    exact dominates ⟨place, before, performs⟩

variable {third : Action}

theorem Dominates.trans (left : graph.Dominates first second)
    (right : graph.Dominates second third) : graph.Dominates first third := by
  rintro ⟨target, avoids, isNext⟩
  rcases right.exists_before (graph.Without first) (fun _ _ step => step.1) avoids isNext with
    ⟨place, performs, before⟩
  exact left ⟨place, before, performs⟩

/-- From behind a dominating action, no way leads past the dominated one to what that one
dominates. -/
theorem Dominates.not_leads (unambiguous : graph.Unambiguous)
    (left : graph.Dominates first second) (right : graph.Dominates second third)
    (apart : first ≠ second) (reachable : graph.Reachable source)
    (isNext : graph.action source = some first) (follows : graph.edge source target) :
    ¬ graph.Leads second target third := by
  intro leads
  have avoids : ∃ place, graph.action place = some first ∧
      ReflTransGen (graph.Without second) graph.entry place := by
    cases exists_first graph.edge reachable second with
    | inl avoids => exact ⟨source, isNext, avoids⟩
    | inr found =>
      rcases found with ⟨place, performs, before⟩
      exact left.exists_before (graph.Without second) (fun _ _ step => step.1) before performs
  rcases avoids with ⟨place, performs, avoids⟩
  have same := unambiguous place source first (Reachable.of_without avoids) reachable performs
    isNext
  rw [same] at avoids
  apply right
  apply Leads.trans avoids
  apply Leads.step follows _ leads
  rw [isNext]
  exact fun equal => apart (Option.some.inj equal)

/-- A relation holds whenever the second action comes next, if the first one dominates it
and establishes the relation, and every other step keeps it or cannot be followed by the
second action without the first one. -/
theorem Dominates.holds {Config : Type*} {step : Config → Config → Prop} {place : Config → Place}
    {start config : Config} (dominates : graph.Dominates first second)
    (begins : place start = graph.entry)
    (follows : ∀ before after, step before after → graph.edge (place before) (place after))
    (relation : Config → Prop)
    (establishes : ∀ before after, ReflTransGen step start before →
      step before after → graph.action (place before) = some first → relation after)
    (keeps : ∀ before after, ReflTransGen step start before → step before after →
      graph.action (place before) ≠ some first → relation before → relation after ∨
      ¬ graph.Leads first (place after) second) (reaches : ReflTransGen step start config)
    (isNext : graph.action (place config) = some second) : relation config := by
  have either : relation config ∨ ¬ graph.Leads first (place config) second := by
    clear isNext
    induction reaches with
    | refl =>
      right
      rw [begins]
      exact dominates
    | @tail before after reaches isStep ih =>
      by_cases performs : graph.action (place before) = some first
      · exact Or.inl (establishes before after reaches isStep performs)
      · cases ih with
        | inl holds => exact keeps before after reaches isStep performs holds
        | inr apart =>
          right
          intro leads
          exact apart (.step (follows before after isStep) performs leads)
  exact either.resolve_right fun apart => apart ⟨place config, .refl, isNext⟩

theorem reachable_of_run {Config : Type*} {step : Config → Config → Prop}
    {place : Config → Place} {start config : Config} (begins : place start = graph.entry)
    (follows : ∀ before after, step before after → graph.edge (place before) (place after))
    (reaches : ReflTransGen step start config) : graph.Reachable (place config) := by
  unfold Reachable
  rw [← begins]
  exact reaches.lift place follows

end ActionGraph

end DaveCC.Graph
