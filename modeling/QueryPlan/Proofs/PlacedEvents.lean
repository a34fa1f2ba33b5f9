import QueryPlan.Proofs.Places
import QueryPlan.Proofs.StepCourses

/-!
# Events at their places

`Node.placed` is the schedule of a tree with the place of the node of each event, which an event
alone does not tell where equal subtrees stand in one tree.
-/

namespace QueryPlan

/-- The node that an event is about. -/
def Event.node : Event → Node
  | before o | op o | after o => .op o
  | expr e => .expr e

namespace Node

variable {n : Node} {π : Place} {e : Event}

/-- The events of a tree with the places of their nodes. -/
def placed (n : Node) : List (Place × Event) := n.tour opening closing

/-- An event of a tree is one of those around the parts of a node, at the place of the node. -/
lemma mem_placed :
    (π, e) ∈ n.placed ↔ ∃ m, n.at? π = some m ∧ (e ∈ m.opening ∨ e ∈ m.closing) :=
  mem_tour

/-- Without the places these are the events of the tree. -/
lemma map_snd_placed (n : Node) : n.placed.map Prod.snd = n.events := by
  induction n using inductionOnParts with
  | step n ih =>
    rw [placed, map_snd_tour, n.events_eq]
    congr 2
    exact List.flatMap_congr ih

/-- Entering an operator fires its `before` hook if it is composite, and nothing else. -/
lemma mem_opening_op {o : Op} : e ∈ (op o).opening ↔ o.isComposite = true ∧ e = .before o := by
  by_cases h : o.isComposite = true <;> simp [opening, h]

/-- Leaving an operator fires its visit, and its `after` hook if it is composite. -/
lemma mem_closing_op {o : Op} :
    e ∈ (op o).closing ↔ e = .op o ∨ (o.isComposite = true ∧ e = .after o) := by
  by_cases h : o.isComposite = true <;> simp [closing, h]

/-- No event comes twice at a place. -/
lemma nodup_placed (n : Node) : n.placed.Nodup := by
  refine nodup_tour (fun m => ?_) n
  cases m with
  | op o => by_cases h : o.isComposite = true <;> simp [opening, closing, h]
  | expr e => simp [opening, closing]

/-- The events around the parts of a node are about the node. -/
lemma node_eq_of_mem {m : Node} (h : e ∈ m.opening ∨ e ∈ m.closing) : e.node = m := by
  cases m with
  | op o =>
    rw [mem_opening_op, mem_closing_op] at h
    rcases h with ⟨-, rfl⟩ | rfl | ⟨-, rfl⟩ <;> rfl
  | expr x =>
    rcases h with h | h
    · cases h
    · rw [List.mem_singleton.1 h]
      rfl

/-- At the place of an event stands the node that it is about. -/
lemma at?_of_mem_placed (h : (π, e) ∈ n.placed) : n.at? π = some e.node := by
  obtain ⟨m, hm, he⟩ := mem_placed.1 h
  rw [hm, node_eq_of_mem he]

/-- Leaf operators have no scope. -/
lemma isComposite_of_mem_placed {o : Op}
    (h : (π, .before o) ∈ n.placed ∨ (π, .after o) ∈ n.placed) :
    o.isComposite = true := by
  have hown {e : Event} (he : (π, e) ∈ n.placed) : e ∈ e.node.opening ∨ e ∈ e.node.closing := by
    obtain ⟨m, -, he⟩ := mem_placed.1 he
    rwa [node_eq_of_mem he]
  rcases h with h | h
  · simpa [Event.node, mem_opening_op, mem_closing_op] using hown h
  · simpa [Event.node, mem_opening_op, mem_closing_op] using hown h

end Node

end QueryPlan
