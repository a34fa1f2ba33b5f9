import QueryPlan.Proofs.Frames
import QueryPlan.Proofs.LeafMap

/-!
# Frames at places

A tree is known by the frames of its nodes, place by place (`Node.eq_of_frames`). So a change to a
tree can be described without any recursion, by what becomes of the frame at each place.

What a `LeafMap` makes of a tree has its nodes at the same places (`LeafMap.at?_apply`), and each of
them has the frame that the map gives the old node by itself (`LeafMap.frame_apply`).
-/

namespace QueryPlan

variable {m n : Node} {l : Link} {π : Place}

/-! ### Trees and their frames -/

namespace Node

/-- The frame of the node at a place. -/
def frameAt? (n : Node) (π : Place) : Option Frame := (n.at? π).map frame

/-- The frame below a part is the one in this part. -/
lemma frameAt?_cons (n : Node) (l : Link) (π : Place) :
    n.frameAt? (l :: π) = (n.partAt? l).bind (·.frameAt? π) :=
  Option.map_bind

/-- Nodes with one frame list their parts in one order. -/
lemma accessors_of_frame (h : m.frame = n.frame) : m.accessors = n.accessors := by
  have hframe (f : Frame) (os os' : List Op) (es es' : List Expr) :
      (f.node os es).accessors = (f.node os' es').accessors := by cases f <;> rfl
  rw [← m.node_frame, ← n.node_frame, h]
  exact hframe _ _ _ _ _

/-- Trees with the same frames at the same places are equal. -/
theorem eq_of_frames (h : ∀ π, m.frameAt? π = n.frameAt? π) : m = n := by
  induction m using inductionOnParts generalizing n with
  | step m ih =>
    have hframe : m.frame = n.frame := Option.some.inj (h [])
    have hpart (l : Link) : m.partAt? l = n.partAt? l := by
      have hbelow (π : Place) : (m.partAt? l).bind (·.frameAt? π) =
          (n.partAt? l).bind (·.frameAt? π) := by
        rw [← frameAt?_cons, ← frameAt?_cons, h]
      -- the frames at the tops of the parts tell whether the link leads to a part at all
      have htop := hbelow []
      rcases hm : m.partAt? l with _ | p <;> rcases hn : n.partAt? l with _ | q
      · rfl
      · cases hm ▸ hn ▸ htop
      · cases hm ▸ hn ▸ htop
      · rw [hm, hn] at hbelow
        have hp : p ∈ m.parts := mem_parts_of_mem_branches (mem_branches.2 hm)
        rw [ih p hp hbelow]
    have haccess (a : Accessor) : m.access a = n.access a :=
      List.ext_getElem? fun i => hpart ⟨a, i⟩
    apply eq_of_frame_of_parts hframe
    rw [← m.flatMap_access, ← n.flatMap_access, accessors_of_frame hframe]
    exact List.flatMap_congr fun a _ => haccess a

end Node

/-! ### Leaves at their places -/

namespace LeafMap

variable (f : LeafMap)

/-- The branches stay and lead to what becomes of the parts. -/
lemma branches_apply (n : Node) :
    (f.apply n).branches = n.branches.map fun b => (b.1, f.apply b.2) := by
  rcases f.apply_cases n with ⟨hleaf, hn, hnew⟩ | ⟨-, hn⟩
  · have hnone {n : Node} (h : n.isLeaf = true) : n.branches = [] := by
      rw [← List.map_eq_nil_iff (f := Prod.snd), n.map_snd_branches, Node.parts_of_leaf h]
    rw [hn, hnone hnew, hnone hleaf, List.map_nil]
  · rw [hn, Node.branches_over (f.results_apply n), ← n.map_snd_branches, List.map_map,
      List.zip_map']
    rfl

/-- What becomes of a part stands where the part stood. -/
lemma partAt?_apply (n : Node) (l : Link) :
    (f.apply n).partAt? l = (n.partAt? l).map f.apply := by
  refine Option.ext fun a => ?_
  rw [← Node.mem_branches, branches_apply, List.mem_map, Option.map_eq_some_iff]
  constructor
  · rintro ⟨⟨l, p⟩, hp, ⟨⟩⟩
    exact ⟨p, Node.mem_branches.1 hp, rfl⟩
  · rintro ⟨p, hp, rfl⟩
    exact ⟨(l, p), Node.mem_branches.2 hp, rfl⟩

/-- At each place stands what becomes of the node there. -/
lemma at?_apply (n : Node) (π : Place) : (f.apply n).at? π = (n.at? π).map f.apply := by
  induction π generalizing n with
  | nil => rfl
  | cons l π ih =>
    rw [Node.at?, Node.at?, partAt?_apply, Option.bind_map, Option.map_bind]
    exact congrArg _ (funext ih)

/-- A new node has the frame of what becomes of the old one by itself. -/
lemma frame_apply (n : Node) : (f.apply n).frame = (f.node n).frame := by
  rcases f.apply_cases n with ⟨-, hn, -⟩ | ⟨hleaf, hn⟩
  · rw [hn]
  · rw [hn, Node.frame_over (f.results_apply n), f.node_of_not_leaf hleaf]

end LeafMap

end QueryPlan
