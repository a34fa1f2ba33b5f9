import QueryPlan.Proofs.RebuiltParts

/-!
# Another tree at one place

`Node.setPart` puts another node in the place of a part, in the list or the position to which a link
leads, and `Node.replaceAt` puts another tree at a place of a tree. `Node.at?_replaceAt_append` and
`Node.at?_replaceAt_of_beside` say that this changes what stands there and below and nothing beside
it.

`Node.over_setPart` is how a run comes to such a node: from results that are the old parts, except
for one.
-/

namespace QueryPlan

namespace Node

/-- A node with another one in the place of the part to which a link leads. -/
def setPart : Node → Link → Node → Node
  | op o, ⟨.children, i⟩, op a => op (o.over (o.children.set i a) o.exprs)
  | op o, ⟨.exprs, i⟩, expr a => op (o.over o.children (o.exprs.set i a))
  | expr (.function f args), ⟨.args, i⟩, expr a => expr (.function f (args.set i a))
  | expr (.aggregate f distinct (some _)), ⟨.argument, _⟩, expr a =>
    expr (.aggregate f distinct (some a))
  | expr (.existence negated _), ⟨.operator, _⟩, op a => expr (.existence negated a)
  | n, _, _ => n

/-- A tree with another one at a place; a place outside of the tree changes nothing. -/
def replaceAt (n a : Node) : Place → Node
  | [] => a
  | l :: π =>
    match n.partAt? l with
    | some p => n.setPart l (p.replaceAt a π)
    | none => n

variable {n m p q a : Node} {l l' : Link} {π ρ : Place}

/-- A link leads to the part `p` of a node, and `q` is a node of the same sort. -/
inductive Replaces : Node → Link → Node → Node → Prop where
  | children {o i o' a} :
    o.children[i]? = some o' →
    Replaces (op o) ⟨.children, i⟩ (op o') (op a)
  | exprs {o i e a} :
    o.exprs[i]? = some e →
    Replaces (op o) ⟨.exprs, i⟩ (expr e) (expr a)
  | args {f args i e a} :
    args[i]? = some e →
    Replaces (expr (.function f args)) ⟨.args, i⟩ (expr e) (expr a)
  | argument {f distinct arg a} :
    Replaces (expr (.aggregate f distinct (some arg))) ⟨.argument, 0⟩ (expr arg) (expr a)
  | operator {negated o a} :
    Replaces (expr (.existence negated o)) ⟨.operator, 0⟩ (op o) (op a)

/-- What stands in the image of a list is the image of what stands there. -/
lemma getElem?_map_eq_some {α : Type} {f : α → Node} {as : List α} {i : Nat}
    (h : (as.map f)[i]? = some p) : ∃ a, as[i]? = some a ∧ f a = p := by
  rw [List.getElem?_map] at h
  exact Option.map_eq_some_iff.1 h

/-- A link of an operator leads to a child or to an expression of its own. -/
lemma replaces_op {o : Op} (hp : (op o).partAt? l = some p) (hq : q.sort = p.sort) :
    Replaces (op o) l p q := by
  obtain ⟨via, i⟩ := l
  cases via with
  | children =>
    obtain ⟨o', ho', rfl⟩ := getElem?_map_eq_some hp
    cases q with
    | op a => exact .children ho'
    | expr a => exact absurd hq.symm sort_op_ne_sort_expr
  | exprs =>
    obtain ⟨e, he, rfl⟩ := getElem?_map_eq_some hp
    cases q with
    | op a => exact absurd hq sort_op_ne_sort_expr
    | expr a => exact .exprs he
  | args | argument | operator => cases hp

/-- A link of an expression leads to an argument or to the operator of an existence test. -/
lemma replaces_expr {e : Expr} (hp : (expr e).partAt? l = some p) (hq : q.sort = p.sort) :
    Replaces (expr e) l p q := by
  obtain ⟨via, i⟩ := l
  have hexpr {e : Expr} (hq : q.sort = (expr e).sort) : ∃ a, q = expr a := by
    cases q with
    | op a => exact absurd hq sort_op_ne_sort_expr
    | expr a => exact ⟨a, rfl⟩
  rcases e with v | v | ⟨f, args⟩ | ⟨f, distinct, _ | arg⟩ | ⟨negated, o⟩
  case function =>
    cases via with
    | args =>
      obtain ⟨e, he, rfl⟩ := getElem?_map_eq_some hp
      obtain ⟨a, rfl⟩ := hexpr hq
      exact .args he
    | _ => cases hp
  case aggregate.some =>
    cases via with
    | argument =>
      cases i with
      | zero =>
        cases hp
        obtain ⟨a, rfl⟩ := hexpr hq
        exact .argument
      | succ i => cases hp
    | _ => cases hp
  case existence =>
    cases via with
    | operator =>
      cases i with
      | zero =>
        cases hp
        cases q with
        | op a => exact .operator
        | expr a => exact absurd hq.symm sort_op_ne_sort_expr
      | succ i => cases hp
    | _ => cases hp
  all_goals cases via <;> cases hp

/-- A link leads to a part, which a node of the same sort may replace. -/
lemma replaces (hp : n.partAt? l = some p) (hq : q.sort = p.sort) : Replaces n l p q := by
  cases n with
  | op o => exact replaces_op hp hq
  | expr e => exact replaces_expr hp hq

/-- A tree at a place below a part is put into this part. -/
lemma replaceAt_cons (h : n.partAt? l = some p) :
    n.replaceAt a (l :: π) = n.setPart l (p.replaceAt a π) := by
  rw [replaceAt, h]

/-- A node with another part has its old sort. -/
lemma sort_setPart (n : Node) (l : Link) (q : Node) : (n.setPart l q).sort = n.sort := by
  unfold setPart
  split <;> rfl

/-- A node in the place of one of its sort leaves the sorts of the nodes above as they are. -/
lemma sort_replaceAt (h : n.at? π = some m) (ha : a.sort = m.sort) :
    (n.replaceAt a π).sort = n.sort := by
  cases π with
  | nil =>
    cases h
    exact ha
  | cons l π =>
    obtain ⟨p, hp, -⟩ := at?_cons_eq_some.1 h
    rw [replaceAt_cons hp, sort_setPart]

/-! ### What the other accessors list -/

/-- A node with another part has its old accessors. -/
lemma accessors_setPart (n : Node) (l : Link) (q : Node) :
    (n.setPart l q).accessors = n.accessors := by
  unfold setPart
  split
  · exact Op.accessors_over _ _ _
  · exact Op.accessors_over _ _ _
  all_goals rfl

/-- The accessor of the link lists the new part in the place of the old one, and the other accessors
list what they did. -/
lemma access_setPart (hp : n.partAt? l = some p) (hq : q.sort = p.sort) (b : Accessor) :
    (n.setPart l q).access b =
      if b = l.via then (n.access b).set l.index q else n.access b := by
  cases replaces hp hq with
  | children | exprs => cases b <;> simp [setPart, access, Op.children_over, Op.exprs_over]
  | args => cases b <;> simp [setPart, access]
  | argument | operator => cases b <;> rfl

/-- The new part stands where its link leads. -/
lemma partAt?_setPart_self (hp : n.partAt? l = some p) (hq : q.sort = p.sort) :
    (n.setPart l q).partAt? l = some q := by
  obtain ⟨hlt, -⟩ := List.getElem?_eq_some_iff.1 hp
  rw [partAt?, access_setPart hp hq, if_pos rfl]
  exact List.getElem?_set_self hlt

/-- Other links lead to the parts to which they led. -/
lemma partAt?_setPart_of_ne (hp : n.partAt? l = some p) (hq : q.sort = p.sort) (h : l' ≠ l) :
    (n.setPart l q).partAt? l' = n.partAt? l' := by
  rw [partAt?, partAt?, access_setPart hp hq]
  by_cases hvia : l'.via = l.via
  · have hindex : l.index ≠ l'.index := by
      intro hindex
      obtain ⟨via, i⟩ := l
      obtain ⟨via', i'⟩ := l'
      cases hvia
      cases hindex
      exact h rfl
    rw [if_pos hvia]
    exact List.getElem?_set_ne hindex
  · rw [if_neg hvia]

/-! ### Places -/

/-- The new tree stands at the place, with everything in it below. -/
theorem at?_replaceAt_append (hm : n.at? π = some m) (ha : a.sort = m.sort) (ρ : Place) :
    (n.replaceAt a π).at? (π ++ ρ) = a.at? ρ := by
  induction π generalizing n with
  | nil => rfl
  | cons l π ih =>
    obtain ⟨p, hp, hm⟩ := at?_cons_eq_some.1 hm
    have hpart := partAt?_setPart_self hp (sort_replaceAt hm ha)
    rw [replaceAt_cons hp, List.cons_append, at?, hpart, Option.bind_some, ih hm]

/-- What stands neither above nor below the place stays. -/
theorem at?_replaceAt_of_beside (hm : n.at? π = some m) (ha : a.sort = m.sort) (hρ : ¬ ρ <+: π)
    (hπ : ¬ π <+: ρ) : (n.replaceAt a π).at? ρ = n.at? ρ := by
  induction π generalizing n ρ with
  | nil => exact absurd List.nil_prefix hπ
  | cons l π ih =>
    obtain ⟨p, hp, hm⟩ := at?_cons_eq_some.1 hm
    have hq := sort_replaceAt hm ha
    cases ρ with
    | nil => exact absurd List.nil_prefix hρ
    | cons l' ρ =>
      rw [replaceAt_cons hp, at?, at?]
      by_cases hl : l' = l
      · cases hl
        have hbeside := ih hm (fun h => hρ (List.cons_prefix_cons.2 ⟨rfl, h⟩))
          fun h => hπ (List.cons_prefix_cons.2 ⟨rfl, h⟩)
        rw [partAt?_setPart_self hp hq, hp, Option.bind_some, Option.bind_some, hbeside]
      · rw [partAt?_setPart_of_ne hp hq hl]

/-- What stands above the place has the new tree in it. -/
theorem at?_replaceAt_of_above (hm : n.at? (π ++ ρ) = some m) (ha : a.sort = m.sort) :
    (n.replaceAt a (π ++ ρ)).at? π = (n.at? π).map (·.replaceAt a ρ) := by
  induction π generalizing n with
  | nil => rfl
  | cons l π ih =>
    rw [List.cons_append] at hm ⊢
    obtain ⟨p, hp, hm⟩ := at?_cons_eq_some.1 hm
    have hpart := partAt?_setPart_self hp (sort_replaceAt hm ha)
    rw [replaceAt_cons hp, at?, at?, hpart, hp, Option.bind_some, Option.bind_some, ih hm]

/-! ### Putting the old tree back -/

/-- A node with its own part in the place of that part. -/
lemma setPart_self (hp : n.partAt? l = some p) : n.setPart l p = n := by
  have hset {α : Type} {as : List α} {i : Nat} {a : α} (h : as[i]? = some a) : as.set i a = as := by
    obtain ⟨hlt, rfl⟩ := List.getElem?_eq_some_iff.1 h
    exact List.set_getElem_self hlt
  cases replaces hp rfl with
  | children h | exprs h =>
    rw [setPart, hset h, Op.over_self]
  | args h => rw [setPart, hset h]
  | argument | operator => rfl

/-- Of two nodes put in one place the second stands there. -/
lemma setPart_setPart {q' : Node} (hp : n.partAt? l = some p) (hq : q.sort = p.sort)
    (hq' : q'.sort = p.sort) : (n.setPart l q).setPart l q' = n.setPart l q' := by
  cases replaces hp hq with
  | @children o i _ a =>
    cases q' with
    | op b =>
      have hlen : (o.children.set i b).length = o.children.length := List.length_set
      rw [setPart, setPart, setPart, Op.children_over List.length_set, Op.exprs_over rfl,
        List.set_set, Op.over_over rfl hlen]
    | expr b => exact absurd hq'.symm sort_op_ne_sort_expr
  | @exprs o i _ a =>
    cases q' with
    | op b => exact absurd hq' sort_op_ne_sort_expr
    | expr b =>
      rw [setPart, setPart, setPart, Op.children_over rfl, Op.exprs_over List.length_set,
        List.set_set, Op.over_over List.length_set rfl]
  | args =>
    cases q' with
    | op b => exact absurd hq' sort_op_ne_sort_expr
    | expr b => rw [setPart, setPart, setPart, List.set_set]
  | argument =>
    cases q' with
    | op b => exact absurd hq' sort_op_ne_sort_expr
    | expr b => rfl
  | operator =>
    cases q' with
    | op b => rfl
    | expr b => exact absurd hq'.symm sort_op_ne_sort_expr

/-- A tree with its own subtree put at the place of this subtree is the tree. -/
theorem replaceAt_self (hm : n.at? π = some m) : n.replaceAt m π = n := by
  induction π generalizing n with
  | nil =>
    cases hm
    rfl
  | cons l π ih =>
    obtain ⟨p, hp, hm⟩ := at?_cons_eq_some.1 hm
    rw [replaceAt_cons hp, ih hm, setPart_self hp]

/-- Of two trees put at one place the second stands there; with `replaceAt_self`, the old tree put
back restores the whole tree. -/
theorem replaceAt_replaceAt {b : Node} (hm : n.at? π = some m) (ha : a.sort = m.sort)
    (hb : b.sort = m.sort) : (n.replaceAt a π).replaceAt b π = n.replaceAt b π := by
  induction π generalizing n with
  | nil => rfl
  | cons l π ih =>
    obtain ⟨p, hp, hm⟩ := at?_cons_eq_some.1 hm
    have hq := sort_replaceAt hm ha
    rw [replaceAt_cons hp, replaceAt_cons (partAt?_setPart_self hp hq), ih hm,
      setPart_setPart hp hq (sort_replaceAt hm hb), replaceAt_cons hp]

/-! ### Results that are the old parts but for one -/

/-- Numbering a list with another element in it. -/
lemma zipIdx_set {α β : Type} (as : List α) (i : Nat) (a : α) (f : α × Nat → β) :
    (as.set i a).zipIdx.map f = as.zipIdx.map fun x => if x.2 = i then f (a, i) else f x := by
  apply List.ext_getElem?
  intro j
  rw [List.getElem?_map, List.getElem?_map, List.getElem?_zipIdx, List.getElem?_zipIdx,
    List.getElem?_set, Nat.zero_add]
  by_cases hij : i = j
  · cases hij
    rw [if_pos rfl]
    by_cases hi : i < as.length
    · rw [if_pos hi, List.getElem?_eq_getElem hi]
      exact congrArg some (if_pos rfl).symm
    · rw [if_neg hi, List.getElem?_eq_none (Nat.le_of_not_lt hi)]
      rfl
  · rw [if_neg hij, Option.map_map, Option.map_map]
    refine congrArg (as[j]?.map ·) (funext fun b => ?_)
    exact (if_neg (Ne.symm hij)).symm

/-- The branches are the old ones, with the new part at the link. -/
lemma branches_setPart {first rest : List (Link × Node)}
    (h : n.branches = first ++ (l, p) :: rest) (hq : q.sort = p.sort) :
    (n.setPart l q).branches = first ++ (l, q) :: rest := by
  have hp : n.partAt? l = some p := mem_branches.1 (h ▸ List.mem_append_cons_self)
  have hmap : (n.setPart l q).branches =
      n.branches.map fun b => if b.1 = l then (l, q) else b := by
    rw [branches, branches, accessors_setPart, List.map_flatMap]
    refine List.flatMap_congr fun b _ => ?_
    rw [access_setPart hp hq, List.map_map]
    by_cases hb : b = l.via
    · rw [if_pos hb, zipIdx_set]
      refine List.map_congr_left fun x _ => ?_
      obtain ⟨via, i⟩ := l
      cases hb
      by_cases hi : x.2 = i
      · cases hi
        rw [if_pos rfl]
        exact (if_pos rfl).symm
      · rw [if_neg hi]
        exact (if_neg fun heq => hi (congrArg Link.index heq)).symm
    · rw [if_neg hb]
      refine List.map_congr_left fun x _ => (if_neg ?_).symm
      rintro rfl
      exact hb rfl
  have hnodup := n.nodup_links
  rw [h, List.map_append, List.map_cons, List.nodup_middle, List.nodup_cons, List.mem_append,
    not_or] at hnodup
  obtain ⟨⟨hfirst, hrest⟩, -⟩ := hnodup
  have hother {bs : List (Link × Node)} (hbs : l ∉ bs.map Prod.fst) :
      (bs.map fun b => if b.1 = l then (l, q) else b) = bs := by
    refine (List.map_congr_left fun b hb => if_neg ?_).trans (List.map_id bs)
    rintro rfl
    exact hbs (List.mem_map_of_mem hb)
  rw [hmap, h, List.map_append, List.map_cons, hother hfirst, hother hrest, if_pos rfl]

/-- A node over its parts but for one is the node with this part replaced. -/
lemma over_parts_setPart (hp : n.partAt? l = some p) (hq : q.sort = p.sort) :
    n.over (n.setPart l q).parts = n.setPart l q := by
  have hover {o : Op} {os : List Op} {es : List Expr} (hos : os.length = o.children.length)
      (hes : es.length = o.exprs.length) :
      (op o).over (op (o.over os es)).parts = op (o.over os es) := by
    change op (o.over ((o.over os es).parts.filterMap op?)
      ((o.over os es).parts.filterMap expr?)) = _
    rw [Op.filterMap_op?_parts, Op.filterMap_expr?_parts, Op.children_over hos, Op.exprs_over hes]
  cases replaces hp hq with
  | children => exact hover List.length_set rfl
  | exprs => exact hover rfl List.length_set
  | @args f args i _ a =>
    change expr (.function f (((args.set i a).map expr).filterMap expr?)) = _
    rw [filterMap_expr?_map]
    rfl
  | argument | operator => rfl

/-- A node over its old parts, but for one, is the node with another part. -/
lemma over_setPart {first rest : List (Link × Node)} (h : n.branches = first ++ (l, p) :: rest)
    (hq : q.sort = p.sort) :
    n.over (first.map Prod.snd ++ q :: rest.map Prod.snd) = n.setPart l q := by
  have hp : n.partAt? l = some p := mem_branches.1 (h ▸ List.mem_append_cons_self)
  have hparts : (n.setPart l q).parts = first.map Prod.snd ++ q :: rest.map Prod.snd := by
    rw [← map_snd_branches, branches_setPart h hq, List.map_append, List.map_cons]
  rw [← hparts, over_parts_setPart hp hq]

end Node

end QueryPlan
