import Mathlib.Tactic.Lemma
import QueryPlan.Tree.Basic

/-!
# Nodes within a tree

`Node.Within` relates a node to the trees it stands in. `Node.Distinct` says that no binding list of
a tree binds a variable twice; binding lists are made by `Bindings.add` alone, so every plan has it.
-/

namespace QueryPlan

/-- The node `m` stands in a tree. -/
inductive Node.Within (m : Node) : Node → Prop where
  | here :
    Within m m
  | part {p n} :
    p ∈ n.parts →
    Within m p →
    Within m n

/-- What stands in a tree within another one stands in the other one. -/
lemma Node.Within.trans {k m n : Node} (hk : k.Within m) (hm : m.Within n) : k.Within n := by
  induction hm with
  | here => exact hk
  | part hp _ ih => exact .part hp ih

/-- The binding lists that a node holds itself. -/
def Node.bindingLists : Node → List (Bindings Expr)
  | op (.extend b _) => [b]
  | op (.group keys aggregates _) => [keys, aggregates]
  | _ => []

/-- No binding list of a tree binds a variable twice. -/
def Node.Distinct (n : Node) : Prop :=
  ∀ m : Node, m.Within n → ∀ b ∈ m.bindingLists, b.Distinct

namespace Node.Distinct

variable {n p : Node}

/-- The binding lists of a distinct node bind no variable twice. -/
lemma own (h : n.Distinct) {b} (hb : b ∈ n.bindingLists) : b.Distinct :=
  h n .here b hb

/-- A tree within a distinct one is distinct. -/
lemma within (h : n.Distinct) (hp : p.Within n) : p.Distinct :=
  fun m hm => h m (hm.trans hp)

/-- The parts of a distinct node are distinct. -/
lemma part (h : n.Distinct) (hp : p ∈ n.parts) : p.Distinct :=
  h.within (.part hp .here)

/-- Distinctness is checked node by node. -/
lemma of_parts (own : ∀ b ∈ n.bindingLists, b.Distinct) (parts : ∀ p ∈ n.parts, p.Distinct) :
    n.Distinct := by
  intro m hm
  cases hm with
  | here => exact own
  | part hp hm => exact parts _ hp m hm

/-- A node over leaves is distinct if its own binding lists are. -/
lemma of_leaves (own : ∀ b ∈ n.bindingLists, b.Distinct)
    (leaves : ∀ p ∈ n.parts, p.parts = [] ∧ p.bindingLists = []) : n.Distinct := by
  refine of_parts own fun p hp => ?_
  obtain ⟨hparts, hlists⟩ := leaves p hp
  refine of_parts ?_ ?_
  · rw [hlists]
    exact List.forall_mem_nil _
  · rw [hparts]
    exact List.forall_mem_nil _

end Node.Distinct

/-- A table with its rows counted for each value of a variable. -/
def Op.countedBy (v : Var) (table : String) : Op :=
  group ⟨[(v, .var v)]⟩ ⟨[(⟨"count"⟩, .aggregate .count false none)]⟩ (scan table none)

/-- The binding lists of `countedBy` bind no variable twice. -/
lemma Op.distinct_countedBy (v : Var) (table : String) :
    (Node.op (countedBy v table)).Distinct := by
  apply Node.Distinct.of_leaves
  · intro b hb
    rcases hb with _ | ⟨_, _ | ⟨_, ⟨⟩⟩⟩
    · exact List.pairwise_singleton _ v
    · exact List.pairwise_singleton _ _
  · intro p hp
    rcases hp with _ | ⟨_, _ | ⟨_, _ | ⟨_, ⟨⟩⟩⟩⟩
    · exact ⟨rfl, rfl⟩
    · exact ⟨rfl, rfl⟩
    · exact ⟨rfl, rfl⟩

end QueryPlan
