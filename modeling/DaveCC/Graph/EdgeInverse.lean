import Mathlib.Data.List.Perm.Basic
import DaveCC.Loop.While

/-!
# Edges kept at both of their ends

A multigraph whose nodes list their operands and their users. The two families of
lists are inverse when every edge is listed as often at one end as at the other.
Each rule below is about one way to change both families.
-/

namespace DaveCC.Graph

open DaveCC.Loop

variable {α : Type*} [DecidableEq α]

/-- Every edge occurs as often among the inputs of its user as among the outputs of
its operand. -/
def EdgeInverse (inputs outputs : α → List α) : Prop :=
  ∀ user operand, (inputs user).count operand = (outputs operand).count user

/-- One occurrence of a user is taken from the list of each operand in turn. -/
def eraseFrom (user : α) (lists : α → List α) (operands : List α) : α → List α :=
  operands.foldl
    (fun lists operand => Function.update lists operand ((lists operand).erase user)) lists

/-- An operand becomes another one. -/
def substitute (old new input : α) : α :=
  if input = old then new else input

/-- Every user of `old` in turn uses `new`, which gains the user as often. -/
def moveUses (old new : α) (edges : (α → List α) × (α → List α)) (users : List α) :
    (α → List α) × (α → List α) :=
  users.foldl
    (fun edges user =>
      (Function.update edges.1 user ((edges.1 user).map (substitute old new)),
        Function.update edges.2 new
          (edges.2 new ++ List.replicate ((edges.1 user).count old) user)))
    edges

theorem count_eraseFrom (user : α) (lists : α → List α) (operands : List α) (node other : α) :
    (eraseFrom user lists operands node).count other =
      if other = user then (lists node).count user - operands.count node
      else (lists node).count other := by
  induction operands generalizing lists with
  | nil => simp only [eraseFrom, List.foldl_nil, List.count_nil]; split <;> simp_all
  | cons operand rest ih =>
    have step := ih (Function.update lists operand ((lists operand).erase user))
    simp only [eraseFrom, List.foldl_cons] at step ⊢
    rw [step, List.count_cons, Function.update_apply]
    by_cases here : node = operand
    · subst here
      grind
    · have notHere : (operand == node) = false := by simp [Ne.symm here]
      simp [here, notHere]

theorem eraseFrom_of_notMem {user : α} {lists : α → List α} {node : α}
    (outside : user ∉ lists node) (operands : List α) :
    eraseFrom user lists operands node = lists node := by
  induction operands generalizing lists with
  | nil => rfl
  | cons operand rest ih =>
    have first : Function.update lists operand ((lists operand).erase user) node = lists node := by
      rw [Function.update_apply]
      split
      · next here =>
          subst here
          exact List.erase_of_not_mem outside
      · rfl
    rw [← first] at outside
    exact (ih outside).trans first

theorem count_map_substitute {old new : α} (apart : old ≠ new) (list : List α) (operand : α) :
    (list.map (substitute old new)).count operand =
      if operand = new then list.count new + list.count old
      else if operand = old then 0
      else list.count operand := by
  induction list with
  | nil => simp
  | cons head rest ih =>
    simp only [List.map_cons, List.count_cons, ih, substitute]
    grind

variable {inputs outputs : α → List α} {user operand new : α}

namespace EdgeInverse

theorem mem_iff (inverse : EdgeInverse inputs outputs) :
    operand ∈ inputs user ↔ user ∈ outputs operand := by
  rw [← List.count_pos_iff, ← List.count_pos_iff, inverse user operand]

/-- The nodes of a finite graph are enough. -/
theorem of_bounded {inputs outputs : Nat → List Nat} (bound : Nat) (inside : ∀ user < bound,
      ∀ operand < bound, (inputs user).count operand = (outputs operand).count user)
    (listed : ∀ id < bound, ∀ other ∈ inputs id ++ outputs id, other < bound)
    (outside : ∀ id, bound ≤ id → inputs id = [] ∧ outputs id = []) :
    EdgeInverse inputs outputs := by
  intro user operand
  rcases Nat.lt_or_ge user bound with userInside | userOutside
  · rcases Nat.lt_or_ge operand bound with operandInside | operandOutside
    · exact inside user userInside operand operandInside
    · rw [(outside operand operandOutside).2, List.count_nil, List.count_eq_zero]
      intro used
      have := listed user userInside operand (List.mem_append_left _ used)
      omega
  · rw [(outside user userOutside).1, List.count_nil, eq_comm, List.count_eq_zero]
    intro used
    rcases Nat.lt_or_ge operand bound with operandInside | operandOutside
    · have := listed operand operandInside user (List.mem_append_right _ used)
      omega
    · rw [(outside operand operandOutside).2] at used
      cases used

theorem link (inverse : EdgeInverse inputs outputs) :
    EdgeInverse (Function.update inputs user (inputs user ++ [operand]))
      (Function.update outputs operand (outputs operand ++ [user])) := by
  intro source target
  have same := inverse source target
  grind

variable {index : Nat}

theorem unlink (inverse : EdgeInverse inputs outputs)
    (found : (inputs user)[index]? = some operand) :
    EdgeInverse (Function.update inputs user ((inputs user).eraseIdx index))
      (Function.update outputs operand ((outputs operand).erase user)) := by
  intro source target
  have same := inverse source target
  obtain ⟨inRange, rfl⟩ := List.getElem?_eq_some_iff.mp found
  have erased := (List.getElem_cons_eraseIdx_perm inRange).count_eq target
  grind

/-- One edge gets another operand. -/
theorem relink (inverse : EdgeInverse inputs outputs)
    (found : (inputs user)[index]? = some operand) :
    let outputs := Function.update outputs operand ((outputs operand).erase user)
    EdgeInverse (Function.update inputs user ((inputs user).set index new))
      (Function.update outputs new (outputs new ++ [user])) := by
  intro erased source target
  have linked : EdgeInverse _ (Function.update erased new (erased new ++ [user])) :=
    (inverse.unlink found).link
  have unlinked := linked source target
  obtain ⟨inRange, rfl⟩ := List.getElem?_eq_some_iff.mp found
  have replaced := (List.set_perm_cons_eraseIdx inRange new).count_eq target
  grind

/-- A node that is taken away, with all of its edges. -/
theorem isolate (inverse : EdgeInverse inputs outputs) (node : α) :
    let outputs := eraseFrom node outputs (inputs node)
    let inputs := eraseFrom node inputs (outputs node)
    EdgeInverse (Function.update inputs node []) (Function.update outputs node []) := by
  intro erasedOutputs erasedInputs source target
  have same := inverse source target
  have outputsLeft := count_eraseFrom node outputs (inputs node) target source
  have inputsLeft := count_eraseFrom node inputs (erasedOutputs node) source target
  grind

variable {old : α}

/-- Moving the users of a node moves each of them once, however often it occurs. -/
theorem moveUses_spec (inputs outputs : α → List α) (apart : old ≠ new) (users : List α) :
    let moved := moveUses old new (inputs, outputs) users
    (∀ user, moved.1 user =
        if user ∈ users then (inputs user).map (substitute old new) else inputs user) ∧
      ∀ user operand, (moved.2 operand).count user =
        (outputs operand).count user +
          if operand = new ∧ user ∈ users then (inputs user).count old else 0 := by
  apply foldl_induct (fun front (edges : (α → List α) × (α → List α)) =>
    (∀ user, edges.1 user =
        if user ∈ front then (inputs user).map (substitute old new) else inputs user) ∧
      ∀ user operand, (edges.2 operand).count user =
        (outputs operand).count user +
          if operand = new ∧ user ∈ front then (inputs user).count old else 0)
  · rintro front user back edges - ⟨inputsEq, outputsEq⟩
    have noneLeft := count_map_substitute apart (inputs user) old
    have again : ((inputs user).map (substitute old new)).map (substitute old new) =
        (inputs user).map (substitute old new) := by
      simp only [List.map_map, List.map_inj_left, Function.comp_apply, substitute]
      grind
    constructor
    · intro other
      simp only [Function.update_apply, inputsEq, List.mem_append, List.mem_singleton]
      by_cases same : other = user
      · subst same
        by_cases done : other ∈ front
        · simp [done, again]
        · simp [done]
      · simp [same]
    · intro other operand
      clear again
      simp only [Function.update_apply, inputsEq user]
      by_cases done : user ∈ front
      · rw [if_pos done, noneLeft]
        grind
      · rw [if_neg done]
        grind
  · simp

/-- The users of one node become the users of another. -/
theorem transfer (inverse : EdgeInverse inputs outputs) (apart : old ≠ new) :
    let moved := moveUses old new (inputs, outputs) (outputs old)
    EdgeInverse moved.1 (Function.update moved.2 old []) := by
  intro result user operand
  have spec := moveUses_spec inputs outputs apart (outputs old)
  have same := inverse user operand
  have count := count_map_substitute apart (inputs user) operand
  grind

end EdgeInverse

end DaveCC.Graph
