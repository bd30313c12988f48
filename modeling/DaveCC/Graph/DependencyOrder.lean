import Mathlib.Data.List.Nodup
import Mathlib.Data.List.Pairwise

/-!
# Precedence in a list

One element stands before another one when the two are a sublist.
-/

namespace DaveCC.Container

variable {α : Type*} {list front back : List α} {first second : α}

theorem nodup_concat (nodup : list.Nodup) (outside : first ∉ list) : (list ++ [first]).Nodup := by
  rw [← List.concat_eq_append]
  exact nodup.concat outside

/-- Of two elements one stands before the other. -/
theorem pair_sublist_or (apart : first ≠ second) (left : first ∈ list) (right : second ∈ list) :
    [first, second].Sublist list ∨ [second, first].Sublist list := by
  have pairs : list.Pairwise fun first second =>
      [first, second].Sublist list ∨ [second, first].Sublist list :=
    List.pairwise_iff_forall_sublist.mpr fun before => .inl before
  have symmetric : Std.Symm fun first second =>
      [first, second].Sublist list ∨ [second, first].Sublist list :=
    ⟨fun _ _ => Or.symm⟩
  exact pairs.forall left right apart

/-- What stands before an element that occurs once. -/
theorem mem_front_of_pair_sublist (nodup : (front ++ second :: back).Nodup)
    (before : [first, second].Sublist (front ++ second :: back)) : first ∈ front := by
  have later : second ∉ back := (List.nodup_cons.mp nodup.of_append_right).1
  rcases List.sublist_append_iff.mp before with ⟨left, right, split, inFront, inBack⟩
  cases left with
  | nil =>
    subst split
    cases inBack with
    | cons _ rest => exact absurd (rest.subset (by simp)) later
    | cons_cons _ rest => exact absurd (rest.subset (by simp)) later
  | cons other left =>
    have same : first = other := (List.cons.inj split).1
    rw [same]
    exact inFront.subset List.mem_cons_self

/-- What an element that occurs once stands before. -/
theorem mem_back_of_pair_sublist (nodup : (front ++ first :: back).Nodup)
    (before : [first, second].Sublist (front ++ first :: back)) : second ∈ back := by
  have earlier : first ∉ front := by
    intro inFront
    exact (List.nodup_append.mp nodup).2.2 first inFront first List.mem_cons_self rfl
  rcases List.sublist_append_iff.mp before with ⟨left, right, split, inFront, inBack⟩
  cases left with
  | nil =>
    subst split
    exact List.singleton_sublist.mp (List.cons_sublist_cons.mp inBack)
  | cons other left =>
    have same : first = other := (List.cons.inj split).1
    rw [← same] at inFront
    exact absurd (inFront.subset List.mem_cons_self) earlier

end DaveCC.Container

/-!
## Orders of dependencies

A list in which every node comes after the nodes it needs. What stands in such a list
lies on no cycle.
-/

namespace DaveCC.Graph

variable {α : Type*} {needs : α → List α} {order : List α} {node dep : α}

/-- An element of a list with one more element at its end. -/
theorem split_concat {list front back : List α} {last element : α}
    (split : list ++ [last] = front ++ element :: back) :
    (front = list ∧ element = last ∧ back = []) ∨
      ∃ rest, back = rest ++ [last] ∧ list = front ++ element :: rest := by
  rcases List.eq_nil_or_concat back with rfl | ⟨rest, other, rfl⟩
  · have parts := List.append_inj' split rfl
    cases parts.2
    exact .inl ⟨parts.1.symm, rfl, rfl⟩
  · rw [List.concat_eq_append, ← List.cons_append, ← List.append_assoc] at split
    have parts := List.append_inj' split rfl
    cases parts.2
    exact .inr ⟨rest, List.concat_eq_append .., parts.1⟩

/-- Every node of the list comes after all that it needs. -/
def DependencyOrdered (needs : α → List α) (order : List α) : Prop :=
  ∀ front node back, order = front ++ node :: back → ∀ dep ∈ needs node, dep ∈ front

namespace DependencyOrdered

theorem nil : DependencyOrdered needs [] := by
  intro front node back split
  simp at split

/-- A node is put after all that it needs. -/
theorem concat (ordered : DependencyOrdered needs order)
    (before : ∀ dep ∈ needs node, dep ∈ order) : DependencyOrdered needs (order ++ [node]) := by
  intro front other back split dep needed
  rcases split_concat split with ⟨rfl, rfl, rfl⟩ | ⟨rest, rfl, inner⟩
  · exact before dep needed
  · exact ordered front other rest inner dep needed

/-- What a node of the list needs stands before it. -/
theorem idxOf_lt [DecidableEq α] (ordered : DependencyOrdered needs order) (listed : node ∈ order)
    (needed : dep ∈ needs node) : dep ∈ order ∧ order.idxOf dep < order.idxOf node := by
  rcases List.eq_append_cons_of_mem listed with ⟨front, back, rfl, outside⟩
  have before := ordered front node back rfl dep needed
  constructor
  · exact List.mem_append_left _ before
  · rw [List.idxOf_append_of_mem before, List.idxOf_append_of_notMem outside,
      List.idxOf_cons_self, Nat.add_zero]
    exact List.idxOf_lt_length_iff.mpr before

theorem transGen_idxOf_lt [DecidableEq α] (ordered : DependencyOrdered needs order)
    (listed : node ∈ order) (path : Relation.TransGen (fun node dep => dep ∈ needs node) node dep) :
    dep ∈ order ∧ order.idxOf dep < order.idxOf node := by
  induction path with
  | single needed => exact ordered.idxOf_lt listed needed
  | tail _ needed ih =>
    have further := ordered.idxOf_lt ih.1 needed
    exact ⟨further.1, Nat.lt_trans further.2 ih.2⟩

/-- No node of the list needs itself in any number of steps. -/
theorem acyclic (ordered : DependencyOrdered needs order) (listed : node ∈ order) :
    ¬Relation.TransGen (fun node dep => dep ∈ needs node) node node := by
  classical
  intro cycle
  exact Nat.lt_irrefl _ (ordered.transGen_idxOf_lt listed cycle).2

end DependencyOrdered

end DaveCC.Graph
