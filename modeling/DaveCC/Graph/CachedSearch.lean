import Mathlib.Data.Finset.Card
import DaveCC.Loop.While

/-!
# A search with recorded answers

A search back from a node asks whether all of its predecessors are unreachable. It marks a
node as known before it asks the predecessors, so that a node on a cycle answers with what is
recorded for it already. The answers are right, whatever is asked and in which order, exactly
when the recorded ones are `Consistent`.
-/

namespace DaveCC.Graph

open DaveCC.Loop Relation

/-- Nodes with their predecessors, and one that is reached without any. -/
structure PredecessorGraph (Node : Type*) where
  nodes : Finset Node
  entry : Node
  predecessors : Node → List Node
  closed : ∀ node ∈ nodes, ∀ predecessor ∈ predecessors node, predecessor ∈ nodes

/-- What is recorded about the nodes. -/
structure Answers (Node : Type*) where
  known : Node → Bool
  unreachable : Node → Bool

variable {Node : Type*} [DecidableEq Node]

namespace Answers

def enter (answers : Answers Node) (node : Node) : Answers Node :=
  { answers with known := Function.update answers.known node true }

def record (answers : Answers Node) (node : Node) : Answers Node :=
  { answers with unreachable := Function.update answers.unreachable node true }

/-- The nodes of a graph that are not known. -/
def unknown (answers : Answers Node) (nodes : Finset Node) : Finset Node :=
  nodes.filter fun node => answers.known node = false

end Answers

namespace PredecessorGraph

/-- The answer for a node, with what is recorded afterwards. -/
def ask (graph : PredecessorGraph Node) (fuel : Nat) (answers : Answers Node) (node : Node) :
    Option (Bool × Answers Node) :=
  if node = graph.entry then some (false, answers)
  else if answers.known node then some (answers.unreachable node, answers)
  else
    match fuel with
    | 0 => none
    | fuel + 1 => do
        let (allUnreachable, answers) ← (graph.predecessors node).foldlM
          (fun (state : Bool × Answers Node) predecessor =>
            if state.1 then graph.ask fuel state.2 predecessor else some state)
          (true, answers.enter node)
        if allUnreachable then some (true, answers.record node) else some (false, answers)

/-- The answers for several nodes in turn. -/
def askAll (graph : PredecessorGraph Node) (fuel : Nat) :
    Answers Node → List Node → Option (List Bool × Answers Node)
  | answers, [] => some ([], answers)
  | answers, node :: rest => do
      let (answer, answers) ← graph.ask fuel answers node
      let (more, answers) ← graph.askAll fuel answers rest
      some (answer :: more, answers)

variable {graph : PredecessorGraph Node} {fuel : Nat} {answers next start : Answers Node}
  {node : Node} {answer : Bool}

theorem ask_entry : graph.ask fuel answers graph.entry = some (false, answers) := by
  unfold ask
  rw [if_pos rfl]

theorem ask_known (notEntry : node ≠ graph.entry) (isKnown : answers.known node = true) :
    graph.ask fuel answers node = some (answers.unreachable node, answers) := by
  unfold ask
  rw [if_neg notEntry, if_pos isKnown]

theorem ask_zero (notEntry : node ≠ graph.entry) (isUnknown : answers.known node = false) :
    graph.ask 0 answers node = none := by
  unfold ask
  rw [if_neg notEntry, if_neg (Bool.eq_false_iff.mp isUnknown)]

theorem ask_unknown (notEntry : node ≠ graph.entry) (isUnknown : answers.known node = false) :
    graph.ask (fuel + 1) answers node =
      ((graph.predecessors node).foldlM
        (fun (state : Bool × Answers Node) predecessor =>
          if state.1 then graph.ask fuel state.2 predecessor else some state)
        (true, answers.enter node)).map fun state =>
          if state.1 then (true, state.2.record node) else (false, state.2) := by
  conv => lhs; unfold ask
  rw [if_neg notEntry, if_neg (Bool.eq_false_iff.mp isUnknown)]
  dsimp only
  cases (graph.predecessors node).foldlM
      (fun (state : Bool × Answers Node) predecessor =>
        if state.1 then graph.ask fuel state.2 predecessor else some state)
      (true, answers.enter node) with
  | none => rfl
  | some state =>
    rcases state with ⟨_ | _, answers⟩ <;> rfl

/-- A node other than the entry is reachable when one of its predecessors is. -/
structure Determines (graph : PredecessorGraph Node) (reachable : Node → Prop) : Prop where
  entry : reachable graph.entry
  predecessor : ∀ node ∈ graph.nodes, node ≠ graph.entry →
    (reachable node ↔ ∃ predecessor ∈ graph.predecessors node, reachable predecessor)

/-- An edge between two nodes whose answers are not known. -/
def OpenEdge (graph : PredecessorGraph Node) (answers : Answers Node) (source target : Node) :
    Prop :=
  source ∈ graph.predecessors target ∧ answers.known source = false ∧ answers.known target = false

variable {reachable : Node → Prop} {stack : List Node}

/-- The known answers are right, an answer that is recorded for an unknown node is right too,
and no other unreachable node is on a cycle of unknown nodes. -/
structure Consistent (graph : PredecessorGraph Node) (reachable : Node → Prop)
    (answers : Answers Node) : Prop where
  known : ∀ node ∈ graph.nodes, node ≠ graph.entry → answers.known node = true →
    (answers.unreachable node = true ↔ ¬ reachable node)
  recorded : ∀ node ∈ graph.nodes, node ≠ graph.entry → answers.unreachable node = true →
    ¬ reachable node
  acyclic : ∀ node ∈ graph.nodes, node ≠ graph.entry → ¬ reachable node →
    answers.known node = false → answers.unreachable node = false →
    ¬ TransGen (graph.OpenEdge answers) node node

omit [DecidableEq Node] in
/-- Fewer edges between the same nodes keep the answers consistent. -/
theorem Consistent.of_subset {smaller : PredecessorGraph Node}
    (consistent : graph.Consistent reachable answers) (nodes : smaller.nodes = graph.nodes)
    (entry : smaller.entry = graph.entry) (fewer : ∀ target, ∀ source ∈ smaller.predecessors target,
      source ∈ graph.predecessors target ∧ source ∈ graph.nodes ∧ target ∈ graph.nodes)
      (agrees : ∀ node ∈ graph.nodes, next.known node = answers.known node ∧ next.unreachable node =
      answers.unreachable node) :
    smaller.Consistent reachable next where
  known := by
    rw [nodes, entry]
    intro node isNode notEntry isKnown
    rw [(agrees node isNode).1] at isKnown
    rw [(agrees node isNode).2]
    exact consistent.known node isNode notEntry isKnown
  recorded := by
    rw [nodes, entry]
    intro node isNode notEntry isRecorded
    rw [(agrees node isNode).2] at isRecorded
    exact consistent.recorded node isNode notEntry isRecorded
  acyclic := by
    rw [nodes, entry]
    intro node isNode notEntry unreachable isUnknown unrecorded cycle
    rw [(agrees node isNode).1] at isUnknown
    rw [(agrees node isNode).2] at unrecorded
    apply consistent.acyclic node isNode notEntry unreachable isUnknown unrecorded
    apply TransGen.mono _ node node cycle
    intro source target isOpen
    have edge := fewer target source isOpen.1
    rw [OpenEdge, (agrees source edge.2.1).1, (agrees target edge.2.2).1] at isOpen
    exact ⟨edge.1, isOpen.2⟩

/-! ## The search gives right answers -/

/-- What holds during a search that started with some answers: the nodes on the stack wait for
their predecessors. -/
structure Searching (graph : PredecessorGraph Node) (reachable : Node → Prop)
    (start : Answers Node) (stack : List Node) (answers : Answers Node) : Prop where
  grows : ∀ node, start.known node = true → answers.known node = true
  known : ∀ node ∈ graph.nodes, node ≠ graph.entry → answers.known node = true → node ∉ stack →
    (answers.unreachable node = true ↔ ¬ reachable node)
  recorded : ∀ node ∈ graph.nodes, node ≠ graph.entry → answers.unreachable node = true →
    ¬ reachable node
  waiting : ∀ node ∈ stack, answers.known node = true ∧ start.known node = false
  unchanged : ∀ node, answers.known node = false ∨ node ∈ stack →
    answers.unreachable node = start.unreachable node

omit [DecidableEq Node] in
theorem Consistent.searching (consistent : graph.Consistent reachable answers) :
    graph.Searching reachable answers [] answers where
  grows := fun _ => id
  known := fun other isNode notEntry isKnown _ => consistent.known other isNode notEntry isKnown
  recorded := consistent.recorded
  waiting := fun _ inside => absurd inside List.not_mem_nil
  unchanged := fun _ _ => rfl

omit [DecidableEq Node] in
/-- At the end of a search the answers are consistent again. -/
theorem Searching.consistent (searching : graph.Searching reachable start [] answers)
    (consistent : graph.Consistent reachable start) : graph.Consistent reachable answers where
  known := fun node isNode notEntry isKnown =>
    searching.known node isNode notEntry isKnown List.not_mem_nil
  recorded := searching.recorded
  acyclic := by
    intro node isNode notEntry unreachable isUnknown unrecorded cycle
    have earlier : ∀ other, answers.known other = false → start.known other = false := by
      intro other isUnknown
      by_contra isKnown
      rw [searching.grows other (Bool.eq_true_of_not_eq_false isKnown)] at isUnknown
      cases isUnknown
    apply consistent.acyclic node isNode notEntry unreachable (earlier node isUnknown)
    · rw [← searching.unchanged node (Or.inl isUnknown)]
      exact unrecorded
    · apply TransGen.mono _ node node cycle
      intro source target isOpen
      exact ⟨isOpen.1, earlier source isOpen.2.1, earlier target isOpen.2.2⟩

omit [DecidableEq Node] in
theorem Searching.unknown_start (searching : graph.Searching reachable start stack answers)
    (isUnknown : answers.known node = false) : start.known node = false := by
  by_contra isKnown
  rw [searching.grows node (Bool.eq_true_of_not_eq_false isKnown)] at isUnknown
  cases isUnknown

omit [DecidableEq Node] in
theorem Searching.not_mem_stack (searching : graph.Searching reachable start stack answers)
    (isUnknown : answers.known node = false) : node ∉ stack := by
  intro inside
  rw [(searching.waiting node inside).1] at isUnknown
  cases isUnknown

/-- A node is marked and waits. -/
theorem Searching.enter (searching : graph.Searching reachable start stack answers)
    (isUnknown : answers.known node = false) :
    graph.Searching reachable start (node :: stack) (answers.enter node) := by
  have isKnown : (answers.enter node).known node = true := Function.update_self _ _ _
  have others : ∀ other, other ≠ node → (answers.enter node).known other = answers.known other :=
    fun other apart => Function.update_of_ne apart _ _
  constructor
  · intro other before
    by_cases same : other = node
    · rw [same]
      exact isKnown
    · rw [others other same]
      exact searching.grows other before
  · intro other isNode notEntry otherKnown outside
    rw [others other (List.ne_of_not_mem_cons outside)] at otherKnown
    exact searching.known other isNode notEntry otherKnown (List.not_mem_of_not_mem_cons outside)
  · exact searching.recorded
  · intro other inside
    by_cases same : other = node
    · rw [same]
      exact ⟨isKnown, searching.unknown_start isUnknown⟩
    · rw [others other same]
      exact searching.waiting other ((List.mem_cons.mp inside).resolve_left same)
  · intro other stays
    apply searching.unchanged other
    by_cases same : other = node
    · rw [same]
      exact Or.inl isUnknown
    · rw [others other same] at stays
      exact stays.imp_right fun inside => (List.mem_cons.mp inside).resolve_left same

/-- A node whose predecessors are unreachable is recorded. -/
theorem Searching.record (searching : graph.Searching reachable start (node :: stack) answers)
    (fresh : node ∉ stack) (unreachable : ¬ reachable node) :
    graph.Searching reachable start stack (answers.record node) := by
  have isRecorded : (answers.record node).unreachable node = true := Function.update_self _ _ _
  have others : ∀ other, other ≠ node →
      (answers.record node).unreachable other = answers.unreachable other :=
    fun other apart => Function.update_of_ne apart _ _
  have isKnown := (searching.waiting node List.mem_cons_self).1
  constructor
  · exact searching.grows
  · intro other isNode notEntry otherKnown outside
    by_cases same : other = node
    · rw [same]
      exact iff_of_true isRecorded unreachable
    · rw [others other same]
      exact searching.known other isNode notEntry otherKnown (List.not_mem_cons_of_ne_of_not_mem same outside)
  · intro other isNode notEntry otherRecorded
    by_cases same : other = node
    · rw [same]
      exact unreachable
    · rw [others other same] at otherRecorded
      exact searching.recorded other isNode notEntry otherRecorded
  · exact fun other inside => searching.waiting other (List.mem_cons_of_mem _ inside)
  · intro other stays
    have apart : other ≠ node := by
      intro same
      rw [same] at stays
      cases stays with
      | inl isUnknown =>
        have known : answers.known node = false := isUnknown
        rw [isKnown] at known
        cases known
      | inr inside => exact fresh inside
    rw [others other apart]
    exact searching.unchanged other (stays.imp_right (List.mem_cons_of_mem _))

omit [DecidableEq Node] in
/-- A reachable node stops waiting. -/
theorem Searching.leave (searching : graph.Searching reachable start (node :: stack) answers)
    (reached : reachable node) : graph.Searching reachable start stack answers where
  grows := searching.grows
  known := by
    intro other isNode notEntry otherKnown outside
    by_cases same : other = node
    · rw [same] at isNode notEntry ⊢
      refine iff_of_false ?_ (not_not_intro reached)
      intro isRecorded
      exact searching.recorded node isNode notEntry isRecorded reached
    · exact searching.known other isNode notEntry otherKnown
        (List.not_mem_cons_of_ne_of_not_mem same outside)
  recorded := searching.recorded
  waiting := fun other inside => searching.waiting other (List.mem_cons_of_mem _ inside)
  unchanged := fun other stays =>
    searching.unchanged other (stays.imp_right (List.mem_cons_of_mem _))

omit [DecidableEq Node] in
theorem unknown_subset {nodes : Finset Node}
    (grows : ∀ other, answers.known other = true → next.known other = true) :
    next.unknown nodes ⊆ answers.unknown nodes := by
  intro other inside
  have ⟨isNode, isUnknown⟩ := Finset.mem_filter.mp inside
  apply Finset.mem_filter.mpr
  refine ⟨isNode, ?_⟩
  by_contra isKnown
  rw [grows other (Bool.eq_true_of_not_eq_false isKnown)] at isUnknown
  cases isUnknown

theorem card_unknown_enter {nodes : Finset Node} (isNode : node ∈ nodes)
    (isUnknown : answers.known node = false) :
    ((answers.enter node).unknown nodes).card < (answers.unknown nodes).card := by
  apply Finset.card_lt_card
  refine ⟨unknown_subset ?_, ?_⟩
  · intro other isKnown
    by_cases same : other = node
    · rw [same]
      exact Function.update_self _ _ _
    · exact (Function.update_of_ne same _ _).trans isKnown
  · intro subset
    have inside := subset (Finset.mem_filter.mpr ⟨isNode, isUnknown⟩)
    have stillUnknown := (Finset.mem_filter.mp inside).2
    rw [show (answers.enter node).known node = true from Function.update_self _ _ _] at stillUnknown
    cases stillUnknown

/-- A node that is known already answers rightly, also when it waits on the stack. -/
theorem Searching.unreachable_iff (searching : graph.Searching reachable start stack answers)
    (consistent : graph.Consistent reachable start) (isNode : node ∈ graph.nodes)
    (notEntry : node ≠ graph.entry) (isKnown : answers.known node = true)
    (chain : start.known node = false → ∀ waiting ∈ stack, TransGen (graph.OpenEdge start) node
      waiting) :
    answers.unreachable node = true ↔ ¬ reachable node := by
  by_cases inside : node ∈ stack
  · refine ⟨searching.recorded node isNode notEntry, ?_⟩
    intro unreachable
    by_contra unrecorded
    have isUnknown := (searching.waiting node inside).2
    rw [searching.unchanged node (Or.inr inside)] at unrecorded
    exact consistent.acyclic node isNode notEntry unreachable isUnknown
      (Bool.eq_false_iff.mpr unrecorded) (chain isUnknown node inside)
  · exact searching.known node isNode notEntry isKnown inside

/-- The outcome of a search for a node. -/
def AsksRightly (graph : PredecessorGraph Node) (reachable : Node → Prop) (fuel : Nat)
    (start : Answers Node) (stack : List Node) (answers : Answers Node) (node : Node) : Prop :=
  ∃ answer next, graph.ask fuel answers node = some (answer, next) ∧
    (answer = true ↔ ¬ reachable node) ∧ graph.Searching reachable start stack next ∧
    ∀ other, answers.known other = true → next.known other = true

section

variable (searching : graph.Searching reachable start stack answers)
  (determines : graph.Determines reachable) (consistent : graph.Consistent reachable start)
  (isNode : node ∈ graph.nodes) (chain : start.known node = false → ∀ waiting ∈ stack, TransGen
    (graph.OpenEdge start) node waiting)

include searching determines consistent isNode chain

/-- A node that is not searched for. -/
theorem Searching.asksRightly_known (isKnown : node ≠ graph.entry → answers.known node = true) :
    graph.AsksRightly reachable fuel start stack answers node := by
  by_cases isEntry : node = graph.entry
  · rw [isEntry]
    refine ⟨false, answers, ask_entry, ?_, searching, fun _ known => known⟩
    exact iff_of_false Bool.false_ne_true (not_not_intro determines.entry)
  · refine ⟨answers.unreachable node, answers, ask_known isEntry (isKnown isEntry), ?_, searching,
      fun _ known => known⟩
    exact searching.unreachable_iff consistent isNode isEntry (isKnown isEntry) chain

theorem Searching.asksRightly (enough : (answers.unknown graph.nodes).card ≤ fuel) :
    graph.AsksRightly reachable fuel start stack answers node := by
  induction fuel generalizing answers node stack with
  | zero =>
    apply searching.asksRightly_known determines consistent isNode chain
    intro _
    by_contra isUnknown
    have inside : node ∈ answers.unknown graph.nodes :=
      Finset.mem_filter.mpr ⟨isNode, Bool.eq_false_iff.mpr isUnknown⟩
    exact Nat.not_lt_of_le enough (Finset.card_pos.mpr ⟨node, inside⟩)
  | succ fuel ih =>
    by_cases settled : node = graph.entry ∨ answers.known node = true
    · apply searching.asksRightly_known determines consistent isNode chain
      exact settled.resolve_left
    · have notEntry : node ≠ graph.entry := fun isEntry => settled (Or.inl isEntry)
      have isUnknown : answers.known node = false :=
        Bool.eq_false_iff.mpr fun isKnown => settled (Or.inr isKnown)
      have startUnknown := searching.unknown_start isUnknown
      have fewer := card_unknown_enter isNode isUnknown
      have loop : ∃ final,
          (graph.predecessors node).foldlM
            (fun (state : Bool × Answers Node) predecessor =>
              if state.1 then graph.ask fuel state.2 predecessor else some state)
            (true, answers.enter node) = some final ∧
          (final.1 = true ↔ ∀ predecessor ∈ graph.predecessors node, ¬ reachable predecessor) ∧
          graph.Searching reachable start (node :: stack) final.2 ∧
          ∀ other, (answers.enter node).known other = true → final.2.known other = true := by
        apply exists_foldlM (fun front (state : Bool × Answers Node) =>
          (state.1 = true ↔ ∀ predecessor ∈ front, ¬ reachable predecessor) ∧
          graph.Searching reachable start (node :: stack) state.2 ∧
          ∀ other, (answers.enter node).known other = true → state.2.known other = true)
        · intro front predecessor back state split holds
          have ⟨soFar, during, grows⟩ := holds
          have isPredecessor : predecessor ∈ graph.predecessors node := by
            rw [split]
            exact List.mem_append_right _ List.mem_cons_self
          cases isAll : state.1 with
          | false =>
            refine ⟨state, rfl, ?_, during, grows⟩
            rw [isAll] at soFar ⊢
            refine iff_of_false Bool.false_ne_true ?_
            intro none
            exact Bool.false_ne_true (soFar.mpr fun other inside =>
              none other (List.mem_append_left _ inside))
          | true =>
            have toStack : start.known predecessor = false →
                ∀ waiting ∈ node :: stack,
                  TransGen (graph.OpenEdge start) predecessor waiting := by
              intro isOpen waiting inside
              have edge : graph.OpenEdge start predecessor node :=
                ⟨isPredecessor, isOpen, startUnknown⟩
              cases List.mem_cons.mp inside with
              | inl same =>
                rw [same]
                exact .single edge
              | inr below => exact .head edge (chain startUnknown waiting below)
            have bounded : (state.2.unknown graph.nodes).card ≤ fuel :=
              Nat.le_of_lt_succ ((Finset.card_le_card (unknown_subset grows)).trans_lt
                (fewer.trans_le enough))
            rcases ih during (graph.closed node isNode predecessor isPredecessor) toStack
              bounded with ⟨answer, next, asked, isRight, still, growsNext⟩
            refine ⟨(answer, next), asked, ?_, still,
              fun other known => growsNext other (grows other known)⟩
            rw [isRight]
            have before := soFar.mp isAll
            constructor
            · intro unreachable other inside
              cases List.mem_append.mp inside with
              | inl inFront => exact before other inFront
              | inr last =>
                rw [List.mem_singleton.mp last]
                exact unreachable
            · intro all
              exact all predecessor (List.mem_append_right _ (List.mem_singleton_self predecessor))
        · refine ⟨?_, searching.enter isUnknown, fun _ known => known⟩
          exact iff_of_true rfl fun other inside => absurd inside List.not_mem_nil
      rcases loop with ⟨⟨allUnreachable, next⟩, returns, isAll, during, grows⟩
      have unreachableIff : allUnreachable = true ↔ ¬ reachable node := by
        rw [determines.predecessor node isNode notEntry, isAll]
        exact ⟨fun all found => found.elim fun other reached => all other reached.1 reached.2,
          fun none other inside reached => none ⟨other, inside, reached⟩⟩
      have growsAll : ∀ other, answers.known other = true → next.known other = true := by
        intro other isKnown
        apply grows
        by_cases same : other = node
        · rw [same]
          exact Function.update_self _ _ _
        · exact (Function.update_of_ne same _ _).trans isKnown
      have fresh := searching.not_mem_stack isUnknown
      rw [AsksRightly, ask_unknown notEntry isUnknown, returns]
      cases allUnreachable with
      | true =>
        exact ⟨true, next.record node, rfl, unreachableIff,
          during.record fresh (unreachableIff.mp rfl), growsAll⟩
      | false =>
        have reached : reachable node :=
          not_not.mp fun unreachable => Bool.false_ne_true (unreachableIff.mpr unreachable)
        exact ⟨false, next, rfl, unreachableIff, during.leave reached, growsAll⟩

end

/-- The answers for some nodes are right. -/
def AnswersRight (graph : PredecessorGraph Node) (reachable : Node → Prop) (fuel : Nat)
    (answers : Answers Node) (nodes : List Node) : Prop :=
  ∃ results next, graph.askAll fuel answers nodes = some (results, next) ∧
    List.Forall₂ (fun node answer => answer = true ↔ ¬ reachable node) nodes results

theorem Consistent.answersRight (consistent : graph.Consistent reachable answers)
    (determines : graph.Determines reachable) {nodes : List Node}
    (areNodes : ∀ node ∈ nodes, node ∈ graph.nodes) (enough : graph.nodes.card ≤ fuel) :
    graph.AnswersRight reachable fuel answers nodes := by
  induction nodes generalizing answers with
  | nil => exact ⟨[], answers, rfl, .nil⟩
  | cons node rest ih =>
    have bounded : (answers.unknown graph.nodes).card ≤ fuel :=
      (Finset.card_filter_le _ _).trans enough
    rcases consistent.searching.asksRightly determines consistent
      (areNodes node List.mem_cons_self) (fun _ waiting inside => absurd inside List.not_mem_nil)
      bounded with ⟨answer, next, asked, isRight, during, _⟩
    rcases ih (during.consistent consistent)
      (fun other inside => areNodes other (List.mem_cons_of_mem _ inside)) with
      ⟨results, final, more, allRight⟩
    refine ⟨answer :: results, final, ?_, .cons isRight allRight⟩
    rw [askAll, asked]
    dsimp only [Option.bind_eq_bind, Option.bind_some]
    rw [more]
    rfl

/-! ## Right answers were consistent -/

/-- What searches for some nodes leave alone, and what they have found out when all of the
nodes are unreachable: the new nodes have no predecessor that was recorded as reachable. -/
structure SearchedAll (graph : PredecessorGraph Node) (answers : Answers Node) (nodes : List Node)
    (answer : Bool) (next : Answers Node) : Prop where
  kept : ∀ other, answers.known other = true →
    next.known other = true ∧ next.unreachable other = answers.unreachable other
  found : answer = true → ∀ node ∈ nodes, node ≠ graph.entry ∧ next.known node = true ∧
    (answers.known node = true → answers.unreachable node = true)
  backwards : answer = true → ∀ other, answers.known other = false → next.known other = true →
    ∀ predecessor ∈ graph.predecessors other, predecessor ≠ graph.entry ∧
      next.known predecessor = true ∧
      (answers.known predecessor = true → answers.unreachable predecessor = true)

/-- A search for one node. -/
structure Searched (graph : PredecessorGraph Node) (answers : Answers Node) (node : Node)
    (answer : Bool) (next : Answers Node) : Prop
    extends graph.SearchedAll answers [node] answer next where
  known : node ≠ graph.entry → next.known node = true
  recorded : answers.unreachable node = true → next.unreachable node = true

omit [DecidableEq Node] in
theorem SearchedAll.search {nodes : List Node} {middle : Answers Node}
    (all : graph.SearchedAll answers nodes true middle)
    (searched : graph.Searched middle node answer next) :
    graph.SearchedAll answers (nodes ++ [node]) answer next := by
  have unchanged : ∀ other, answers.known other = true →
      (middle.known other = true → middle.unreachable other = true) →
      answers.unreachable other = true := by
    intro other isKnown holds
    rw [← (all.kept other isKnown).2]
    exact holds (all.kept other isKnown).1
  constructor
  · intro other isKnown
    have first := all.kept other isKnown
    have second := searched.kept other first.1
    exact ⟨second.1, second.2.trans first.2⟩
  · intro isAll other inside
    cases List.mem_append.mp inside with
    | inl before =>
      have known := all.found rfl other before
      exact ⟨known.1, (searched.kept other known.2.1).1, known.2.2⟩
    | inr last =>
      rw [List.mem_singleton.mp last]
      have known := searched.found isAll node (List.mem_singleton_self node)
      exact ⟨known.1, known.2.1, fun isKnown => unchanged node isKnown known.2.2⟩
  · intro isAll other isUnknown isKnown predecessor isPredecessor
    by_cases before : middle.known other = true
    · have known := all.backwards rfl other isUnknown before predecessor isPredecessor
      exact ⟨known.1, (searched.kept predecessor known.2.1).1, known.2.2⟩
    · have known := searched.backwards isAll other (Bool.eq_false_iff.mpr before) isKnown
        predecessor isPredecessor
      exact ⟨known.1, known.2.1, fun isKnown => unchanged predecessor isKnown known.2.2⟩

theorem searchedAll_of_foldlM {nodes : List Node}
    (asks : ∀ answers node answer next, graph.ask fuel answers node = some (answer,
      next) → graph.Searched answers node answer next)
    (returns : nodes.foldlM (fun (state : Bool × Answers Node) predecessor => if state.1 then
      graph.ask fuel state.2 predecessor else some state) (true, answers) = some (answer, next)) :
    graph.SearchedAll answers nodes answer next := by
  refine foldlM_induct (fun front (state : Bool × Answers Node) =>
    graph.SearchedAll answers front state.1 state.2) ?_ ?_ returns
  · intro front item back state after _ all steps
    cases isAll : state.1 with
    | true =>
      rw [isAll] at all
      simp only [isAll, if_true] at steps
      exact all.search (asks _ _ _ _ steps)
    | false =>
      simp only [isAll, Bool.false_eq_true, if_false] at steps
      cases steps
      rw [isAll] at all ⊢
      refine ⟨all.kept, ?_, ?_⟩
      · intro impossible
        cases impossible
      · intro impossible
        cases impossible
  · refine ⟨fun other isKnown => ⟨isKnown, rfl⟩, ?_, ?_⟩
    · intro _ other inside
      exact absurd inside List.not_mem_nil
    · intro _ other isUnknown isKnown
      rw [isUnknown] at isKnown
      cases isKnown

omit [DecidableEq Node] in
/-- A search that records nothing. -/
theorem Searched.unchanged (known : node ≠ graph.entry → answers.known node = true)
    (found : answer = true → node ≠ graph.entry ∧ answers.unreachable node = true) :
    graph.Searched answers node answer answers where
  kept := fun other isKnown => ⟨isKnown, rfl⟩
  found := by
    intro isFound other inside
    rw [List.mem_singleton.mp inside]
    have facts := found isFound
    exact ⟨facts.1, known facts.1, fun _ => facts.2⟩
  backwards := by
    intro _ other isUnknown isKnown
    rw [isUnknown] at isKnown
    cases isKnown
  known := known
  recorded := id

/-- The node that is searched for is marked before its predecessors. -/
theorem SearchedAll.searched (isUnknown : answers.known node = false)
    (all : graph.SearchedAll (answers.enter node) (graph.predecessors node) answer next)
    (notEntry : node ≠ graph.entry) :
    graph.Searched answers node answer (if answer then next.record node else next) := by
  have entered : ∀ other, answers.known other = true →
      (answers.enter node).known other = true := by
    intro other isKnown
    by_cases same : other = node
    · rw [same]
      exact Function.update_self _ _ _
    · exact (Function.update_of_ne same _ _).trans isKnown
  have ⟨isKnown, sameRecord⟩ := all.kept node (Function.update_self _ _ _)
  have kept : ∀ other, answers.known other = true →
      next.known other = true ∧ next.unreachable other = answers.unreachable other ∧
        other ≠ node := by
    intro other otherKnown
    have facts := all.kept other (entered other otherKnown)
    refine ⟨facts.1, facts.2, ?_⟩
    intro same
    rw [same, isUnknown] at otherKnown
    cases otherKnown
  cases answer with
  | false =>
    refine ⟨⟨fun other otherKnown => ?_, ?_, ?_⟩, fun _ => isKnown, sameRecord.trans⟩
    · exact ⟨(kept other otherKnown).1, (kept other otherKnown).2.1⟩
    · intro impossible
      cases impossible
    · intro impossible
      cases impossible
  | true =>
    refine ⟨⟨?_, ?_, ?_⟩, fun _ => isKnown, fun _ => Function.update_self _ _ _⟩
    · intro other otherKnown
      have facts := kept other otherKnown
      exact ⟨facts.1, (Function.update_of_ne facts.2.2 _ _).trans facts.2.1⟩
    · intro _ other inside
      rw [List.mem_singleton.mp inside]
      refine ⟨notEntry, isKnown, ?_⟩
      intro impossible
      rw [isUnknown] at impossible
      cases impossible
    · intro _ other otherUnknown otherKnown predecessor isPredecessor
      by_cases same : other = node
      · rw [same] at isPredecessor
        have facts := all.found rfl predecessor isPredecessor
        exact ⟨facts.1, facts.2.1, fun known => facts.2.2 (entered predecessor known)⟩
      · have facts := all.backwards rfl other
          ((Function.update_of_ne same _ _).trans otherUnknown) otherKnown predecessor
          isPredecessor
        exact ⟨facts.1, facts.2.1, fun known => facts.2.2 (entered predecessor known)⟩

theorem searched_of_known (isKnown : node ≠ graph.entry → answers.known node = true)
    (asked : graph.ask fuel answers node = some (answer, next)) :
    graph.Searched answers node answer next := by
  by_cases isEntry : node = graph.entry
  · rw [isEntry, ask_entry] at asked
    cases asked
    exact .unchanged isKnown fun impossible => by cases impossible
  · rw [ask_known isEntry (isKnown isEntry)] at asked
    cases asked
    exact .unchanged isKnown fun isFound => ⟨isEntry, isFound⟩

theorem searched_of_ask (asked : graph.ask fuel answers node = some (answer, next)) :
    graph.Searched answers node answer next := by
  induction fuel generalizing answers node answer next with
  | zero =>
    apply searched_of_known _ asked
    intro notEntry
    by_contra isUnknown
    rw [ask_zero notEntry (Bool.eq_false_iff.mpr isUnknown)] at asked
    cases asked
  | succ fuel ih =>
    by_cases settled : node ≠ graph.entry → answers.known node = true
    · exact searched_of_known settled asked
    · have ⟨notEntry, isKnown⟩ := Classical.not_imp.mp settled
      have isUnknown := Bool.eq_false_iff.mpr isKnown
      rw [ask_unknown notEntry isUnknown] at asked
      rcases Option.map_eq_some_iff.mp asked with ⟨⟨all, final⟩, returns, result⟩
      have searched := (searchedAll_of_foldlM (fun _ _ _ _ => ih) returns).searched isUnknown
        notEntry
      cases all with
      | true =>
        cases result
        exact searched
      | false =>
        cases result
        exact searched

/-- When all predecessors of a node are answered to be unreachable, the node is not on a cycle
of unknown nodes, unless its own answer was recorded before. -/
theorem SearchedAll.acyclic
    (all : graph.SearchedAll (answers.enter node) (graph.predecessors node) true next)
    (unrecorded : answers.unreachable node = false) :
    ¬ TransGen (graph.OpenEdge answers) node node := by
  have apart : ∀ other, ((answers.enter node).known other = true →
      (answers.enter node).unreachable other = true) → other ≠ node := by
    intro other holds same
    rw [same] at holds
    exact Bool.false_ne_true (unrecorded.symm.trans (holds (Function.update_self _ _ _)))
  have backwards : ∀ other, TransGen (graph.OpenEdge answers) other node →
      other ≠ node ∧ next.known other = true := by
    intro other path
    induction path using TransGen.head_induction_on with
    | single edge =>
      have facts := all.found rfl _ edge.1
      exact ⟨apart _ facts.2.2, facts.2.1⟩
    | head edge _ ih =>
      have unknown := (Function.update_of_ne ih.1 true answers.known).trans edge.2.2
      have facts := all.backwards rfl _ unknown ih.2 _ edge.1
      exact ⟨apart _ facts.2.2, facts.2.1⟩
  intro cycle
  exact (backwards node cycle).1 rfl

theorem acyclic_of_ask (notEntry : node ≠ graph.entry) (isUnknown : answers.known node = false)
    (unrecorded : answers.unreachable node = false)
    (asked : graph.ask fuel answers node = some (true, next)) :
    ¬ TransGen (graph.OpenEdge answers) node node := by
  cases fuel with
  | zero =>
    rw [ask_zero notEntry isUnknown] at asked
    cases asked
  | succ fuel =>
    rw [ask_unknown notEntry isUnknown] at asked
    rcases Option.map_eq_some_iff.mp asked with ⟨⟨all, final⟩, returns, result⟩
    cases all with
    | false => cases result
    | true =>
      exact (searchedAll_of_foldlM (fun _ _ _ _ => searched_of_ask) returns).acyclic unrecorded

theorem AnswersRight.ask (right : graph.AnswersRight reachable fuel answers [node]) :
    ∃ answer next, graph.ask fuel answers node = some (answer, next) ∧
      (answer = true ↔ ¬ reachable node) := by
  rcases right with ⟨results, final, returns, areRight⟩
  rcases Option.bind_eq_some_iff.mp returns with ⟨⟨answer, next⟩, asked, rest⟩
  cases rest
  cases areRight with
  | cons isRight _ => exact ⟨answer, _, asked, isRight⟩

/-- The second of two answers for one node is right. -/
theorem AnswersRight.askTwice (right : graph.AnswersRight reachable fuel answers [node, node]) :
    ∃ first middle second last, graph.ask fuel answers node = some (first, middle) ∧
      graph.ask fuel middle node = some (second, last) ∧ (second = true ↔ ¬ reachable node) := by
  rcases right with ⟨results, final, returns, areRight⟩
  rcases Option.bind_eq_some_iff.mp returns with ⟨⟨first, middle⟩, askedFirst, rest⟩
  rcases Option.bind_eq_some_iff.mp rest with ⟨⟨more, last⟩, askedMore, result⟩
  rcases Option.bind_eq_some_iff.mp askedMore with ⟨⟨second, last⟩, askedSecond, rest⟩
  cases rest
  cases result
  cases areRight with
  | cons _ areRight =>
    cases areRight with
    | cons isRight _ => exact ⟨first, middle, second, _, askedFirst, askedSecond, isRight⟩

/-- When every node is answered rightly, also when it is asked twice, the recorded answers are
consistent. -/
theorem consistent_of_answersRight
    (right : ∀ nodes : List Node, (∀ node ∈ nodes, node ∈ graph.nodes) →
      graph.AnswersRight reachable fuel answers nodes) : graph.Consistent reachable answers := by
  have once : ∀ node ∈ graph.nodes, graph.AnswersRight reachable fuel answers [node] := by
    intro node isNode
    apply right
    intro other inside
    rw [List.mem_singleton.mp inside]
    exact isNode
  have known : ∀ node ∈ graph.nodes, node ≠ graph.entry → answers.known node = true →
      (answers.unreachable node = true ↔ ¬ reachable node) := by
    intro node isNode notEntry isKnown
    rcases (once node isNode).ask with ⟨answer, next, asked, isRight⟩
    rw [ask_known notEntry isKnown] at asked
    cases asked
    exact isRight
  refine ⟨known, ?_, ?_⟩
  · intro node isNode notEntry isRecorded
    cases isKnown : answers.known node with
    | true => exact (known node isNode notEntry isKnown).mp isRecorded
    | false =>
      have twice : graph.AnswersRight reachable fuel answers [node, node] := by
        apply right
        intro other inside
        have same : other = node := by simpa using inside
        rw [same]
        exact isNode
      rcases twice.askTwice with ⟨first, middle, second, last, askedFirst, askedSecond, isRight⟩
      have searched := searched_of_ask askedFirst
      rw [ask_known notEntry (searched.known notEntry)] at askedSecond
      cases askedSecond
      exact isRight.mp (searched.recorded isRecorded)
  · intro node isNode notEntry unreachable isUnknown unrecorded
    rcases (once node isNode).ask with ⟨answer, next, asked, isRight⟩
    rw [isRight.mpr unreachable] at asked
    exact acyclic_of_ask notEntry isUnknown unrecorded asked

end PredecessorGraph

end DaveCC.Graph
