import Mathlib.Data.List.Infix
import Mathlib.Data.List.Nodup
import Mathlib.Tactic.Lemma
import QueryPlan.Tree.Basic

/-!
# Places in a tree

Equal subtrees can stand at several places of a tree, so a place is not a node but a way to one: a
list of links, each of which names an accessor and a position in what that accessor lists.
`Node.at?` follows a place from the top node; nothing in it depends on an order of visiting.

`Node.branches` puts the parts of a node, in visiting order, next to the links that lead to them
(`Node.map_snd_branches`, `Node.mem_branches`). From there `Node.tour` goes through a tree and lists
what two functions give before and after the parts of each node, with the places. `Node.mem_tour`
says where such items come from, and `Node.exists_cut` cuts a tour at a place: what stands there has
its items in one piece, the nodes above are begun before it and ended after it, and every other node
is done with before or begun after.
-/

namespace QueryPlan

variable {α β : Type}

/-! ### Accessors and links -/

/-- The ways from a node to what stands directly below it: the operators that an operator holds, the
expressions that it owns, the arguments of a function, the argument of an aggregate, and the
operator of an existence test. -/
inductive Accessor where
  | children
  | exprs
  | args
  | argument
  | operator
deriving DecidableEq

/-- What an accessor lists. -/
def Node.access : Node → Accessor → List Node
  | op o, .children => o.children.map op
  | op o, .exprs => o.exprs.map expr
  | expr (.function _ args), .args => args.map expr
  | expr (.aggregate _ _ arg), .argument => arg.toList.map expr
  | expr (.existence _ o), .operator => [op o]
  | _, _ => []

/-- The accessors of a node in the order in which a run goes through what they list. -/
def Node.accessors : Node → List Accessor
  | op (.leftJoin ..) => [.children, .exprs]
  | op _ => [.exprs, .children]
  | expr _ => [.args, .argument, .operator]

/-- One step down a tree, to a position in what an accessor lists. -/
structure Link where
  via : Accessor
  index : Nat
deriving DecidableEq

/-- The links from the top node of a tree to a node in it. -/
abbrev Place := List Link

/-- The part that a link leads to. -/
def Node.partAt? (n : Node) (l : Link) : Option Node := (n.access l.via)[l.index]?

/-- The node at a place. -/
def Node.at? (n : Node) : Place → Option Node
  | [] => some n
  | l :: π => (n.partAt? l).bind (·.at? π)

/-- The parts of a node with the links that lead to them, in visiting order. -/
def Node.branches (n : Node) : List (Link × Node) :=
  n.accessors.flatMap fun a => (n.access a).zipIdx.map fun (p, i) => (⟨a, i⟩, p)

namespace Node

variable {n m p : Node} {l : Link} {π ρ : Place}

/-- At the empty place stands the node itself. -/
lemma at?_nil (n : Node) : n.at? [] = some n :=
  rfl

/-- A place begins with a link to a part, and goes on in this part. -/
lemma at?_cons_eq_some : n.at? (l :: π) = some m ↔ ∃ p, n.partAt? l = some p ∧ p.at? π = some m :=
  Option.bind_eq_some_iff

/-- A place below a place is one in the tree that stands there. -/
lemma at?_append (n : Node) (π ρ : Place) : n.at? (π ++ ρ) = (n.at? π).bind (·.at? ρ) := by
  induction π generalizing n with
  | nil => rfl
  | cons l π ih =>
    rw [List.cons_append, at?, at?, Option.bind_assoc]
    exact congrArg _ (funext ih)

/-- A part of the node at a place stands one link further. -/
lemma at?_concat (hm : n.at? π = some m) (hp : m.partAt? l = some p) :
    n.at? (π ++ [l]) = some p := by
  rw [at?_append, hm]
  exact at?_cons_eq_some.2 ⟨p, hp, rfl⟩

/-- The accessors of a node list its parts, in visiting order. -/
lemma flatMap_access (n : Node) : n.accessors.flatMap n.access = n.parts := by
  rcases n with o | e
  · cases o with
    | group keys aggregates input =>
      simp only [accessors, access, parts, Op.parts, Op.exprs, Op.children, List.flatMap_cons,
        List.flatMap_nil, List.map_append, List.append_nil, List.map_cons, List.map_nil]
    | order keys input =>
      simp only [accessors, access, parts, Op.parts, Op.exprs, Op.children, List.flatMap_cons,
        List.flatMap_nil, List.map_map, List.append_nil, List.map_cons, List.map_nil]
      rfl
    | _ =>
      simp only [accessors, access, parts, Op.parts, Op.exprs, Op.children, List.flatMap_cons,
        List.flatMap_nil, List.append_nil, List.map_cons, List.map_nil, List.nil_append]
  · rcases e with v | v | ⟨f, args⟩ | ⟨f, d, _ | arg⟩ | ⟨negated, o⟩
    case function =>
      simp only [accessors, access, parts, Expr.parts, List.flatMap_cons, List.flatMap_nil,
        List.append_nil]
    all_goals rfl

/-- Operators have two accessors, and the expressions come first or last. -/
lemma accessors_op (o : Op) :
    (op o).accessors = [.exprs, .children] ∨ (op o).accessors = [.children, .exprs] := by
  cases o with
  | leftJoin => exact .inr rfl
  | _ => exact .inl rfl

/-- No accessor is used twice. -/
lemma nodup_accessors (n : Node) : n.accessors.Nodup := by
  cases n with
  | op o => rcases accessors_op o with h | h <;> rw [h] <;> decide
  | expr e =>
    change [Accessor.args, .argument, .operator].Nodup
    decide

/-- An accessor that lists something is one of those of the node. -/
lemma mem_accessors {a : Accessor} (h : p ∈ n.access a) : a ∈ n.accessors := by
  cases n with
  | op o =>
    cases a
    case children | exprs => rcases accessors_op o with ho | ho <;> rw [ho] <;> decide
    all_goals cases h
  | expr e =>
    change a ∈ [Accessor.args, .argument, .operator]
    cases a
    case children | exprs => cases e <;> cases h
    all_goals decide

/-- Without their links the branches of a node are its parts. -/
lemma map_snd_branches (n : Node) : n.branches.map Prod.snd = n.parts := by
  rw [branches, List.map_flatMap, ← n.flatMap_access]
  refine List.flatMap_congr fun a _ => ?_
  rw [List.map_map]
  exact List.zipIdx_map_fst 0 (n.access a)

/-- The branches of a node are the links that lead to its parts. -/
lemma mem_branches : (l, p) ∈ n.branches ↔ n.partAt? l = some p := by
  rw [branches, List.mem_flatMap]
  constructor
  · rintro ⟨a, -, h⟩
    obtain ⟨⟨q, i⟩, hq, heq⟩ := List.mem_map.1 h
    cases heq
    exact List.mk_mem_zipIdx_iff_getElem?.1 hq
  · intro h
    refine ⟨l.via, mem_accessors (List.mem_of_getElem? h), List.mem_map.2 ⟨(p, l.index), ?_, rfl⟩⟩
    exact List.mk_mem_zipIdx_iff_getElem?.2 h

/-- The node of a branch is a part. -/
lemma mem_parts_of_mem_branches (h : (l, p) ∈ n.branches) : p ∈ n.parts := by
  rw [← n.map_snd_branches]
  exact List.mem_map_of_mem h

/-- To each part leads a link. -/
lemma exists_partAt? (h : p ∈ n.parts) : ∃ l, n.partAt? l = some p := by
  rw [← n.map_snd_branches] at h
  obtain ⟨⟨l, q⟩, hmem, rfl⟩ := List.mem_map.1 h
  exact ⟨l, mem_branches.1 hmem⟩

/-- Different branches have different links. -/
lemma nodup_links (n : Node) : (n.branches.map Prod.fst).Nodup := by
  rw [branches, List.map_flatMap, List.nodup_flatMap]
  constructor
  · intro a _
    rw [List.map_map]
    refine List.Nodup.of_map Link.index ?_
    rw [List.map_map]
    change ((n.access a).zipIdx.map Prod.snd).Nodup
    rw [List.zipIdx_map_snd]
    exact List.nodup_range'
  · refine n.nodup_accessors.imp fun hne l hl hl' => ?_
    obtain ⟨_, hx, rfl⟩ := List.mem_map.1 hl
    obtain ⟨_, -, rfl⟩ := List.mem_map.1 hx
    obtain ⟨_, hy, heq⟩ := List.mem_map.1 hl'
    obtain ⟨_, -, rfl⟩ := List.mem_map.1 hy
    exact hne (congrArg Link.via heq).symm

end Node

/-! ### Tours -/

/-- Items of a tree that stands itself at a place. -/
def beneath (π : Place) (items : List (Place × α)) : List (Place × α) :=
  items.map fun x => (π ++ x.1, x.2)

/-- Beneath the top node items have the places that they had. -/
lemma beneath_nil (items : List (Place × α)) : beneath [] items = items :=
  List.map_id items

/-- Items are moved by two places as by the one place made of both. -/
lemma beneath_beneath (π ρ : Place) (items : List (Place × α)) :
    beneath π (beneath ρ items) = beneath (π ++ ρ) items := by
  rw [beneath, beneath, List.map_map]
  refine List.map_congr_left fun x _ => ?_
  rw [Function.comp_apply, List.append_assoc]

/-- Two lists of items are moved one after the other. -/
lemma beneath_append (π : Place) (xs ys : List (Place × α)) :
    beneath π (xs ++ ys) = beneath π xs ++ beneath π ys :=
  List.map_append

/-- Items are moved before or after they are put together. -/
lemma beneath_flatMap (π : Place) (f : β → List (Place × α)) (bs : List β) :
    beneath π (bs.flatMap f) = bs.flatMap fun b => beneath π (f b) :=
  List.map_flatMap

/-- Beneath a place the places of all items go on from it. -/
lemma mem_beneath {π ρ : Place} {a : α} {items : List (Place × α)} :
    (ρ, a) ∈ beneath π items ↔ ∃ ρ', (ρ', a) ∈ items ∧ ρ = π ++ ρ' := by
  rw [beneath, List.mem_map]
  constructor
  · rintro ⟨⟨ρ', a⟩, h, heq⟩
    cases heq
    exact ⟨ρ', h, rfl⟩
  · rintro ⟨ρ', h, rfl⟩
    exact ⟨_, h, rfl⟩

namespace Node

variable {n m p : Node} {l : Link} {π ρ : Place}

/-- What `pre` gives before the parts of each node of a tree and `post` after them, with the places
of the nodes. -/
def tour (pre post : Node → List α) (n : Node) : List (Place × α) :=
  (pre n).map ([], ·) ++
    n.branches.attach.flatMap (fun ⟨(l, p), _⟩ => beneath [l] (p.tour pre post)) ++
    (post n).map ([], ·)
termination_by sizeOf n
decreasing_by exact sizeOf_lt_of_mem_parts (mem_parts_of_mem_branches ‹_›)

variable (pre post : Node → List α)

/-- A tour lists what comes before the parts, the tours of the branches, and what comes after. -/
lemma tour_eq (n : Node) :
    n.tour pre post =
      (pre n).map ([], ·) ++ n.branches.flatMap (fun b => beneath [b.1] (b.2.tour pre post)) ++
        (post n).map ([], ·) := by
  rw [tour]
  congr 2
  conv_rhs => rw [← List.attach_map_subtype_val n.branches, List.flatMap_map]

/-- A tour of the subtree at a place. -/
lemma beneath_tour_eq (π : Place) (n : Node) :
    beneath π (n.tour pre post) =
      (pre n).map (π, ·) ++
        n.branches.flatMap (fun b => beneath (π ++ [b.1]) (b.2.tour pre post)) ++
        (post n).map (π, ·) := by
  have hitems (items : List α) : beneath π (items.map (([] : Place), ·)) = items.map (π, ·) := by
    simp only [beneath, List.map_map, Function.comp_def, List.append_nil]
  rw [tour_eq, beneath_append, beneath_append, hitems, hitems, beneath_flatMap]
  simp only [beneath_beneath]

/-- Without the places a tour is a recursion along the parts. -/
lemma map_snd_tour (n : Node) :
    (n.tour pre post).map Prod.snd =
      pre n ++ n.parts.flatMap (fun p => (p.tour pre post).map Prod.snd) ++ post n := by
  rw [tour_eq, ← n.map_snd_branches, List.map_append, List.map_append, List.map_flatMap,
    List.flatMap_map, List.map_map, List.map_map]
  simp only [beneath, List.map_map, Function.comp_def, List.map_id']

variable {pre post}

/-- The items of a tour are those of the nodes at their places. -/
lemma mem_tour {a : α} :
    (π, a) ∈ n.tour pre post ↔ ∃ m, n.at? π = some m ∧ (a ∈ pre m ∨ a ∈ post m) := by
  induction π generalizing n with
  | nil =>
    have hbelow : ([], a) ∉ n.branches.flatMap (fun b => beneath [b.1] (b.2.tour pre post)) := by
      intro h
      obtain ⟨b, -, hb⟩ := List.mem_flatMap.1 h
      obtain ⟨ρ, -, heq⟩ := mem_beneath.1 hb
      cases heq
    rw [tour_eq]
    simp only [List.mem_append, hbelow, or_false, List.mem_map, Prod.mk.injEq, true_and,
      exists_eq_right, at?, Option.some.injEq, exists_eq_left']
  | cons l π ih =>
    have hitems (items : List α) : (l :: π, a) ∉ items.map (([] : Place), ·) := by
      intro h
      obtain ⟨_, -, heq⟩ := List.mem_map.1 h
      cases heq
    rw [tour_eq]
    simp only [List.mem_append, hitems, false_or, or_false, List.mem_flatMap]
    constructor
    · rintro ⟨⟨l', p⟩, hp, h⟩
      obtain ⟨ρ, hρ, heq⟩ := mem_beneath.1 h
      cases heq
      obtain ⟨m, hm, ha⟩ := ih.1 hρ
      exact ⟨m, at?_cons_eq_some.2 ⟨p, mem_branches.1 hp, hm⟩, ha⟩
    · rintro ⟨m, hm, ha⟩
      obtain ⟨p, hp, hm⟩ := at?_cons_eq_some.1 hm
      exact ⟨(l, p), mem_branches.2 hp, mem_beneath.2 ⟨π, ih.2 ⟨m, hm, ha⟩, rfl⟩⟩

/-- The branches are split at a link: there is one branch with it. -/
lemma branches_split (h : n.partAt? l = some p) :
    ∃ before after, n.branches = before ++ (l, p) :: after ∧ ∀ b ∈ before, b.1 ≠ l := by
  obtain ⟨before, after, hsplit⟩ := List.append_of_mem (mem_branches.2 h)
  have hnodup := n.nodup_links
  rw [hsplit, List.map_append, List.map_cons, List.nodup_middle, List.nodup_cons,
    List.mem_append, not_or] at hnodup
  exact ⟨before, after, hsplit, fun b hb hl => hnodup.1.1 (List.mem_map.2 ⟨b, hb, hl⟩)⟩

/-- The items of the top node itself stand at no place below. -/
lemma not_prefix_of_mem_items {items : List α} {x : Place × α} (hx : x ∈ items.map ([], ·)) :
    ¬ l :: π <+: x.1 := by
  obtain ⟨_, -, rfl⟩ := List.mem_map.1 hx
  exact fun h => List.cons_ne_nil _ _ (List.prefix_nil.1 h)

/-- The items of other branches stand at no place of a branch. -/
lemma not_prefix_of_mem_branches {bs : List (Link × Node)} {x : Place × α}
    (hbs : ∀ b ∈ bs, b.1 ≠ l)
    (hx : x ∈ bs.flatMap (fun b => beneath [b.1] (b.2.tour pre post))) : ¬ l :: π <+: x.1 := by
  obtain ⟨b, hb, hx⟩ := List.mem_flatMap.1 hx
  obtain ⟨ρ, -, heq⟩ := mem_beneath.1 hx
  rw [heq]
  exact fun h => hbs b hb (List.cons_prefix_cons.1 h).1.symm

/-- Items outside a place stay outside if both are moved along a link. -/
lemma not_prefix_of_mem_beneath {items : List (Place × α)} {x : Place × α}
    (hitems : ∀ x ∈ items, ¬ π <+: x.1) (hx : x ∈ beneath [l] items) : ¬ l :: π <+: x.1 := by
  obtain ⟨ρ, hρ, heq⟩ := mem_beneath.1 hx
  rw [heq]
  exact fun h => hitems _ hρ (List.cons_prefix_cons.1 h).2

/-- A tour cut at a place: the items of what stands there come in one piece. -/
structure Cut (pre post : Node → List α) (n : Node) (π : Place) (m : Node)
    (before after : List (Place × α)) : Prop where
  eq : n.tour pre post = before ++ beneath π (m.tour pre post) ++ after
  /-- Nothing from there comes before. -/
  not_before : ∀ x ∈ before, ¬ π <+: x.1
  /-- A node above is begun before and ended after. -/
  above : ∀ ρ k, ρ <+: π → ρ ≠ π → n.at? ρ = some k →
    (∀ a ∈ pre k, (ρ, a) ∈ before) ∧ ∀ a ∈ post k, (ρ, a) ∈ after
  /-- A node neither above nor below is ended before, or it is begun after. -/
  beside : ∀ ρ k, ¬ ρ <+: π → ¬ π <+: ρ → n.at? ρ = some k →
    (∀ a, a ∈ pre k ∨ a ∈ post k → (ρ, a) ∈ before) ∨
      ∀ a, a ∈ pre k ∨ a ∈ post k → (ρ, a) ∈ after

/-- At the empty place there is nothing before the cut and nothing after it. -/
lemma Cut.here (pre post : Node → List α) (n : Node) : Cut pre post n [] n [] [] where
  eq := by
    rw [List.append_nil, List.nil_append, beneath_nil]
  not_before := List.forall_mem_nil _
  above _ _ hρ hne := absurd (List.prefix_nil.1 hρ) hne
  beside ρ _ _ hρ := absurd (List.nil_prefix (l := ρ)) hρ

/-- A cut of a part is one of the node: more comes before it and more after it. -/
lemma Cut.part {before after : List (Place × α)} {first rest : List (Link × Node)}
    (h : Cut pre post p π m before after) (hbranches : n.branches = first ++ (l, p) :: rest)
    (hfirst : ∀ b ∈ first, b.1 ≠ l) :
    Cut pre post n (l :: π) m
      ((pre n).map ([], ·) ++ first.flatMap (fun b => beneath [b.1] (b.2.tour pre post)) ++
        beneath [l] before)
      (beneath [l] after ++ rest.flatMap (fun b => beneath [b.1] (b.2.tour pre post)) ++
        (post n).map ([], ·)) where
  eq := by
    rw [tour_eq, hbranches, List.flatMap_append, List.flatMap_cons, h.eq, beneath_append,
      beneath_append, beneath_beneath]
    simp only [List.append_assoc, List.singleton_append]
  not_before := by
    refine List.forall_mem_append.2 ⟨List.forall_mem_append.2 ⟨fun x hx => ?_, fun x hx => ?_⟩,
      fun x hx => ?_⟩
    · exact not_prefix_of_mem_items hx
    · exact not_prefix_of_mem_branches hfirst hx
    · exact not_prefix_of_mem_beneath h.not_before hx
  above := by
    intro ρ k hρ hne hk
    cases ρ with
    | nil =>
      cases hk
      refine ⟨fun a ha => ?_, fun a ha => ?_⟩
      · exact List.mem_append_left _ (List.mem_append_left _ (List.mem_map_of_mem ha))
      · exact List.mem_append_right _ (List.mem_map_of_mem ha)
    | cons l' ρ =>
      obtain ⟨rfl, hρ'⟩ := List.cons_prefix_cons.1 hρ
      obtain ⟨q, hq, hk⟩ := at?_cons_eq_some.1 hk
      have hp : n.partAt? l' = some p := mem_branches.1 (hbranches ▸ List.mem_append_cons_self)
      cases hp.symm.trans hq
      obtain ⟨hpre, hpost⟩ := h.above ρ k hρ' (fun heq => hne (congrArg _ heq)) hk
      refine ⟨fun a ha => ?_, fun a ha => ?_⟩
      · exact List.mem_append_right _ (mem_beneath.2 ⟨ρ, hpre a ha, rfl⟩)
      · refine List.mem_append_left _ (List.mem_append_left _ ?_)
        exact mem_beneath.2 ⟨ρ, hpost a ha, rfl⟩
  beside := by
    intro ρ k hρ hρ' hk
    cases ρ with
    | nil => exact absurd List.nil_prefix hρ
    | cons l' ρ =>
      obtain ⟨q, hq, hk⟩ := at?_cons_eq_some.1 hk
      have hmem := mem_branches.2 hq
      rw [hbranches] at hmem
      -- all items from a branch come together
      have hbranch (bs : List (Link × Node)) (h : (l', q) ∈ bs) (a) (ha : a ∈ pre k ∨ a ∈ post k) :
          (l' :: ρ, a) ∈ bs.flatMap fun b => beneath [b.1] (b.2.tour pre post) :=
        List.mem_flatMap.2 ⟨_, h, mem_beneath.2 ⟨ρ, mem_tour.2 ⟨k, hk, ha⟩, rfl⟩⟩
      rcases List.mem_append.1 hmem with hmem | hmem
      · refine .inl fun a ha => ?_
        exact List.mem_append_left _ (List.mem_append_right _ (hbranch first hmem a ha))
      · rcases List.mem_cons.1 hmem with heq | hmem
        · cases heq
          have hρ₁ : ¬ ρ <+: π := fun h => hρ (List.cons_prefix_cons.2 ⟨rfl, h⟩)
          have hρ₂ : ¬ π <+: ρ := fun h => hρ' (List.cons_prefix_cons.2 ⟨rfl, h⟩)
          rcases h.beside ρ k hρ₁ hρ₂ hk with h | h
          · refine .inl fun a ha => ?_
            exact List.mem_append_right _ (mem_beneath.2 ⟨ρ, h a ha, rfl⟩)
          · refine .inr fun a ha => List.mem_append_left _ (List.mem_append_left _ ?_)
            exact mem_beneath.2 ⟨ρ, h a ha, rfl⟩
        · refine .inr fun a ha => ?_
          exact List.mem_append_left _ (List.mem_append_right _ (hbranch rest hmem a ha))

/-- A tour can be cut at every place where a node stands. -/
lemma exists_cut (pre post : Node → List α) (h : n.at? π = some m) :
    ∃ before after, Cut pre post n π m before after := by
  induction π generalizing n with
  | nil =>
    cases h
    exact ⟨_, _, .here pre post _⟩
  | cons l π ih =>
    obtain ⟨p, hp, hm⟩ := at?_cons_eq_some.1 h
    obtain ⟨before, after, hcut⟩ := ih hm
    obtain ⟨first, rest, hbranches, hfirst⟩ := branches_split hp
    exact ⟨_, _, hcut.part hbranches hfirst⟩

/-- What items give is moved to their places before or after it is collected. -/
lemma flatMap_beneath (f : α → List β) (π : Place) (items : List (Place × α)) :
    (beneath π items).flatMap (fun x => (f x.2).map (x.1, ·)) =
      beneath π (items.flatMap fun x => (f x.2).map (x.1, ·)) := by
  simp only [beneath, List.flatMap_map, List.map_flatMap, List.map_map, Function.comp_def]

/-- A tour of lists of items is the tour of the items. -/
lemma flatMap_tour (f : α → List β) (n : Node) :
    (n.tour pre post).flatMap (fun x => (f x.2).map (x.1, ·)) =
      n.tour (fun m => (pre m).flatMap f) (fun m => (post m).flatMap f) := by
  have hitems (π : Place) (items : List α) :
      (items.map (π, ·)).flatMap (fun x => (f x.2).map (x.1, ·)) =
        (items.flatMap f).map (π, ·) := by
    rw [List.flatMap_map, List.map_flatMap]
  induction n using inductionOnParts with
  | step n ih =>
    rw [tour_eq, tour_eq, List.flatMap_append, List.flatMap_append, hitems, hitems,
      List.flatMap_assoc]
    congr 2
    refine List.flatMap_congr fun b hb => ?_
    rw [flatMap_beneath, ih _ (mem_parts_of_mem_branches hb)]

/-- If no node has an item twice, neither has a tour. -/
lemma nodup_tour (h : ∀ m, (pre m ++ post m).Nodup) (n : Node) : (n.tour pre post).Nodup := by
  have hinj (π : Place) : Function.Injective fun x : Place × α => (π ++ x.1, x.2) := by
    intro x y heq
    obtain ⟨hplace, hitem⟩ := Prod.mk.inj heq
    exact Prod.ext (List.append_cancel_left hplace) hitem
  induction n using inductionOnParts with
  | step n ih =>
    obtain ⟨hpre, hpost, hne⟩ := List.nodup_append.1 (h n)
    have hitems (items : List α) (hitems : items.Nodup) : (items.map (([] : Place), ·)).Nodup :=
      hitems.map fun _ _ heq => congrArg Prod.snd heq
    rw [tour_eq, List.append_assoc]
    refine (hitems _ hpre).append (List.Nodup.append ?_ (hitems _ hpost) ?_) ?_
    · refine List.nodup_flatMap.2 ⟨fun b hb => ?_, ?_⟩
      · exact (ih _ (mem_parts_of_mem_branches hb)).map (hinj _)
      · refine (List.pairwise_map.1 n.nodup_links).imp fun hlinks x hx hy => ?_
        obtain ⟨_, -, heq⟩ := mem_beneath.1 hx
        obtain ⟨_, -, heq'⟩ := mem_beneath.1 hy
        exact hlinks (List.cons.inj (heq.symm.trans heq')).1
    · intro x hx hy
      obtain ⟨_, -, rfl⟩ := List.mem_map.1 hy
      obtain ⟨b, -, hb⟩ := List.mem_flatMap.1 hx
      obtain ⟨ρ, -, heq⟩ := mem_beneath.1 hb
      cases heq
    · intro x hx hy
      obtain ⟨a, ha, rfl⟩ := List.mem_map.1 hx
      rcases List.mem_append.1 hy with hy | hy
      · obtain ⟨b, -, hb⟩ := List.mem_flatMap.1 hy
        obtain ⟨ρ, -, heq⟩ := mem_beneath.1 hb
        cases heq
      · obtain ⟨b, hb, heq⟩ := List.mem_map.1 hy
        cases heq
        exact hne a ha a hb rfl

/-! ### Nodes before and after their parts -/

/-- The nodes of a tree with their places, each one before its parts. -/
def preorder (n : Node) : List (Place × Node) := n.tour (fun m => [m]) fun _ => []

/-- The nodes of a tree with their places, each one after its parts. -/
def postorder (n : Node) : List (Place × Node) := n.tour (fun _ => []) fun m => [m]

/-- In preorder each node of a tree is listed with its place. -/
lemma mem_preorder : (π, m) ∈ n.preorder ↔ n.at? π = some m := by
  rw [preorder, mem_tour]
  simp only [List.mem_singleton, List.not_mem_nil, or_false, exists_eq_right']

/-- In postorder each node of a tree is listed with its place. -/
lemma mem_postorder : (π, m) ∈ n.postorder ↔ n.at? π = some m := by
  rw [postorder, mem_tour]
  simp only [List.mem_singleton, List.not_mem_nil, false_or, exists_eq_right']

/-- In postorder no place is listed twice. -/
lemma nodup_postorder (n : Node) : (n.postorder.map Prod.fst).Nodup := by
  refine List.Nodup.map_on ?_ (nodup_tour (fun m => List.nodup_singleton m) n)
  rintro ⟨π, m⟩ hm ⟨_, k⟩ hk rfl
  cases (mem_postorder.1 hm).symm.trans (mem_postorder.1 hk)
  rfl

/-- In postorder a node is listed after all that stands in its branches. -/
lemma postorder_eq (n : Node) :
    n.postorder = n.branches.flatMap (fun b => beneath [b.1] b.2.postorder) ++ [([], n)] :=
  tour_eq _ _ n

end Node

end QueryPlan
