import QueryPlan.Proofs.Places
import QueryPlan.Proofs.Rebuild

/-!
# The parts of a rebuilt node

A node over its own parts is that node again (`Node.over_parts`). A node that is rebuilt from
results has these results for its parts (`Node.parts_over`), provided that there is one result for
each old part, of the sort of the part. It does not matter how the node keeps them: in a list, in
sort keys, in two binding lists or in places of their own.
-/

namespace QueryPlan

variable {α β : Type}

/-! ### Over its own parts -/

/-- A binding list is its variables paired with its values. -/
lemma Bindings.zip_vars_values (b : Bindings α) : (⟨b.vars.zip b.values⟩ : Bindings α) = b :=
  congrArg mk (List.zip_of_prod rfl rfl).symm

/-- An operator over what it holds is the operator. -/
lemma Op.over_self (o : Op) : o.over o.children o.exprs = o := by
  cases o with
  | order keys input =>
    have hkeys : keys.zipWith (fun k e => { k with key := e }) (keys.map (·.key)) = keys := by
      rw [List.zipWith_map_right, List.zipWith_self]
      exact List.map_id keys
    exact congrArg (order · input) hkeys
  | extend b input => exact congrArg (extend · input) b.zip_vars_values
  | group keys aggregates input =>
    have hsize : keys.values.length = keys.size := List.length_map _
    change group ⟨keys.vars.zip ((keys.values ++ aggregates.values).take keys.size)⟩
      ⟨aggregates.vars.zip ((keys.values ++ aggregates.values).drop keys.size)⟩ input = _
    rw [List.take_left' hsize, List.drop_left' hsize, Bindings.zip_vars_values,
      Bindings.zip_vars_values]
  | _ => rfl

/-- An expression over what it holds is the expression. -/
lemma Expr.over_self (e : Expr) : e.over (Node.expr e).ops e.args = e := by
  rcases e with v | v | ⟨f, args⟩ | ⟨f, distinct, _ | arg⟩ | ⟨negated, op⟩
  all_goals rfl

/-- A node with its own parts in their places is the node. -/
theorem Node.over_parts (n : Node) : n.over n.parts = n := by
  cases n with
  | op o =>
    change op (o.over (o.parts.filterMap op?) (o.parts.filterMap expr?)) = _
    rw [o.filterMap_op?_parts, o.filterMap_expr?_parts, o.over_self]
  | expr e =>
    change expr (e.over (expr e).ops (expr e).exprs) = _
    rw [exprs_expr, e.over_self]

/-! ### Over results -/

/-- An operator keeps its accessors whatever it holds. -/
lemma Op.accessors_over (o : Op) (os : List Op) (es : List Expr) :
    (Node.op (o.over os es)).accessors = (Node.op o).accessors := by
  cases o <;> rfl

/-- The operators in a rebuilt operator are those that it was rebuilt from. -/
lemma Op.children_over {o : Op} {os : List Op} (h : os.length = o.children.length)
    (es : List Expr) : (o.over os es).children = os := by
  cases o with
  | scan | empty => exact (List.length_eq_zero_iff.1 h).symm
  | filter | project | distinct | slice | order | extend | group =>
    obtain ⟨a, rfl⟩ := List.length_eq_one_iff.1 h
    rfl
  | join | leftJoin | union | minus =>
    obtain ⟨a, b, rfl⟩ := List.length_eq_two.1 h
    rfl
  | sequence | disjunction => rfl

/-- Variables that are paired with as many values have these values. -/
lemma Bindings.values_zip {b : Bindings α} {values : List β} (h : values.length = b.size) :
    (⟨b.vars.zip values⟩ : Bindings β).values = values := by
  apply List.map_snd_zip
  rw [h, vars, List.length_map]
  exact Nat.le_refl _

/-- A group deals out expressions to its keys first and to its aggregates then. -/
lemma Op.length_dealt {keys aggregates : Bindings Expr} {input : Op} {es : List α}
    (h : es.length = (group keys aggregates input).exprs.length) :
    (es.take keys.size).length = keys.size ∧ (es.drop keys.size).length = aggregates.size := by
  rw [exprs, List.length_append, Bindings.values, Bindings.values, List.length_map,
    List.length_map] at h
  constructor
  · rw [List.length_take, h]
    exact Nat.min_eq_left (Nat.le_add_right _ _)
  · rw [List.length_drop, h]
    exact Nat.add_sub_cancel_left _ _

/-- The expressions in a rebuilt operator are those that it was rebuilt from. -/
lemma Op.exprs_over {o : Op} {es : List Expr} (h : es.length = o.exprs.length) (os : List Op) :
    (o.over os es).exprs = es := by
  cases o with
  | filter | leftJoin => rfl
  | order keys input =>
    rw [exprs, List.length_map] at h
    change (keys.zipWith (fun k e => { k with key := e }) es).map (·.key) = es
    rw [List.map_zipWith, ← List.map_uncurry_zip_eq_zipWith]
    exact List.map_snd_zip (Nat.le_of_eq h)
  | extend b input => exact Bindings.values_zip (h.trans (List.length_map _))
  | group keys aggregates input =>
    obtain ⟨hkeys, haggregates⟩ := length_dealt h
    change Bindings.values ⟨_⟩ ++ Bindings.values ⟨_⟩ = es
    rw [Bindings.values_zip hkeys, Bindings.values_zip haggregates, List.take_append_drop]
  | scan | empty | project | distinct | slice | join | union | minus | sequence | disjunction =>
    exact (List.length_eq_zero_iff.1 h).symm

/-- Variables that are paired with as many values stay the variables. -/
lemma Bindings.vars_zip {b : Bindings α} {values : List β} (h : values.length = b.size) :
    (⟨b.vars.zip values⟩ : Bindings β).vars = b.vars := by
  apply List.map_fst_zip
  rw [h, vars, List.length_map]
  exact Nat.le_refl _

/-- Of two lists of expressions put in sort keys the second one stands there. -/
lemma SortKey.zipWith_zipWith {keys : List (SortKey Expr)} {es : List Expr}
    (h : es.length = keys.length) (es' : List Expr) :
    (keys.zipWith (fun k e => { k with key := e }) es).zipWith (fun k e => { k with key := e })
      es' = keys.zipWith (fun k e => { k with key := e }) es' := by
  induction keys generalizing es es' with
  | nil => rfl
  | cons k keys ih =>
    cases es with
    | nil => cases h
    | cons e es =>
      cases es' with
      | nil => rfl
      | cons e' es' => exact congrArg (_ :: ·) (ih (Nat.succ.inj h) es')

/-- Of two rebuildings the second counts. -/
lemma Op.over_over {o : Op} {os os' : List Op} {es : List Expr} (h : es.length = o.exprs.length)
    (h' : os'.length = o.children.length) (es' : List Expr) :
    (o.over os es).over os' es' = o.over os' es' := by
  cases o with
  | scan | empty | sequence | disjunction => rfl
  | filter | project | distinct | slice =>
    obtain ⟨a, rfl⟩ := List.length_eq_one_iff.1 h'
    rfl
  | order keys input =>
    obtain ⟨a, rfl⟩ := List.length_eq_one_iff.1 h'
    exact congrArg (order · a) (SortKey.zipWith_zipWith (h.trans (List.length_map _)) es')
  | extend b input =>
    obtain ⟨a, rfl⟩ := List.length_eq_one_iff.1 h'
    exact congrArg (fun vars => extend ⟨vars.zip es'⟩ a)
      (Bindings.vars_zip (h.trans (List.length_map _)))
  | group keys aggregates input =>
    obtain ⟨a, rfl⟩ := List.length_eq_one_iff.1 h'
    obtain ⟨hkeys, haggregates⟩ := length_dealt h
    have hsize {b : Bindings Expr} {values : List Expr} (h : values.length = b.size) :
        (⟨b.vars.zip values⟩ : Bindings Expr).size = b.size := by
      have hvars := congrArg List.length (Bindings.vars_zip h)
      rwa [Bindings.vars, List.length_map, Bindings.vars, List.length_map] at hvars
    simp only [Op.over, Bindings.vars_zip hkeys, Bindings.vars_zip haggregates, hsize hkeys]
    rfl
  | join | leftJoin | union | minus =>
    obtain ⟨a, b, rfl⟩ := List.length_eq_two.1 h'
    rfl

/-- Of two lots of results put in an expression the second one stands there. -/
lemma Expr.over_over {e : Expr} {os os' : List Op} {es es' : List Expr}
    (hops : os'.length = (Node.expr e).ops.length) (hargs : es'.length = e.args.length) :
    (e.over os es).over os' es' = e.over os' es' := by
  rcases e with v | v | ⟨f, args⟩ | ⟨f, distinct, _ | arg⟩ | ⟨negated, op⟩
  case aggregate.some =>
    obtain ⟨a, rfl⟩ := List.length_eq_one_iff.1 hargs
    rfl
  case existence =>
    obtain ⟨a, rfl⟩ := List.length_eq_one_iff.1 hops
    rfl
  all_goals rfl

/-- Of two rebuildings of a node the second counts. -/
lemma Node.over_over {n : Node} {results results' : List Node} (h : Results n.parts results)
    (h' : Results n.parts results') : (n.over results).over results' = n.over results' := by
  cases n with
  | op o =>
    have hexprs := h.length_exprs
    have hops := h'.length_ops
    rw [parts, o.filterMap_expr?_parts] at hexprs
    rw [parts, o.filterMap_op?_parts] at hops
    exact congrArg op (Op.over_over hexprs hops _)
  | expr e =>
    have hargs := h'.length_exprs.trans (congrArg List.length (exprs_expr e))
    exact congrArg expr (Expr.over_over h'.length_ops hargs)

/-- Results for expressions are expressions. -/
lemma Results.of_exprs {es : List Expr} {ps results : List Node}
    (h : Results (es.map .expr ++ ps) results) :
    ∃ (es' : List Expr) (rest : List Node), results = es'.map .expr ++ rest ∧ Results ps rest := by
  induction es generalizing results with
  | nil => exact ⟨[], results, rfl, h⟩
  | cons e es ih =>
    cases h with
    | @cons _ a _ _ hsort hresults =>
      obtain ⟨es', rest, rfl, hrest⟩ := ih hresults
      cases a with
      | op o => exact absurd hsort Node.sort_op_ne_sort_expr
      | expr e' => exact ⟨e' :: es', rest, rfl, hrest⟩

/-- Results for operators begin with operators. -/
lemma Results.of_ops {os : List Op} {ps results : List Node}
    (h : Results (os.map .op ++ ps) results) :
    ∃ (os' : List Op) (rest : List Node), results = os'.map .op ++ rest ∧ Results ps rest := by
  induction os generalizing results with
  | nil => exact ⟨[], results, rfl, h⟩
  | cons o os ih =>
    cases h with
    | @cons _ a _ _ hsort hresults =>
      obtain ⟨os', rest, rfl, hrest⟩ := ih hresults
      cases a with
      | op o' => exact ⟨o' :: os', rest, rfl, hrest⟩
      | expr e => exact absurd hsort.symm Node.sort_op_ne_sort_expr

/-- The parts of a rebuilt operator are the results that it was rebuilt from. -/
lemma Op.parts_over {o : Op} {results : List Node} (h : Results o.parts results) :
    (o.over (results.filterMap Node.op?) (results.filterMap Node.expr?)).parts = results := by
  have hops := h.length_ops
  rw [o.filterMap_op?_parts] at hops
  have hexprs := h.length_exprs
  rw [o.filterMap_expr?_parts] at hexprs
  have hparts : (Node.op o).accessors.flatMap (Node.op o).access = o.parts :=
    Node.flatMap_access (.op o)
  refine (Node.flatMap_access (.op (o.over _ _))).symm.trans ?_
  rw [o.accessors_over]
  have hop (es : List Expr) : (es.map Node.expr).filterMap Node.op? = [] :=
    filterMap_op?_map_expr id es
  rcases Node.accessors_op o with ho | ho
  · rw [ho] at hparts ⊢
    simp only [List.flatMap_cons, List.flatMap_nil, List.append_nil, Node.access,
      children_over hops, exprs_over hexprs] at hparts ⊢
    rw [← hparts, ← List.append_nil (List.map _ o.children)] at h
    obtain ⟨es, rest, rfl, hrest⟩ := Results.of_exprs h
    obtain ⟨os, rest, rfl, ⟨⟩⟩ := Results.of_ops hrest
    simp only [List.filterMap_append, List.append_nil, hop, Node.filterMap_expr?_map,
      filterMap_op?_map_op, filterMap_expr?_map_op, List.nil_append]
  · rw [ho] at hparts ⊢
    simp only [List.flatMap_cons, List.flatMap_nil, List.append_nil, Node.access,
      children_over hops, exprs_over hexprs] at hparts ⊢
    rw [← hparts, ← List.append_nil (List.map _ o.exprs)] at h
    obtain ⟨os, rest, rfl, hrest⟩ := Results.of_ops h
    obtain ⟨es, rest, rfl, ⟨⟩⟩ := Results.of_exprs hrest
    simp only [List.filterMap_append, List.append_nil, hop, Node.filterMap_expr?_map,
      filterMap_op?_map_op, filterMap_expr?_map_op, List.nil_append]

/-- The parts of a rebuilt expression are the results for its parts. -/
lemma Expr.parts_over {e : Expr} {results : List Node} (h : Results e.parts results) :
    (e.over (results.filterMap Node.op?) (results.filterMap Node.expr?)).parts = results := by
  rcases e with v | v | ⟨f, args⟩ | ⟨f, d, _ | arg⟩ | ⟨negated, o⟩
  case const | var | aggregate.none =>
    cases h
    rfl
  case function =>
    rw [parts, ← List.append_nil (List.map _ args)] at h
    obtain ⟨es, rest, rfl, ⟨⟩⟩ := Results.of_exprs h
    rw [Expr.over, parts, List.append_nil, Node.filterMap_expr?_map]
  case aggregate.some =>
    cases h with
    | @cons _ a _ _ hsort hrest =>
      cases hrest
      cases a with
      | op o => exact absurd hsort Node.sort_op_ne_sort_expr
      | expr e => rfl
  case existence =>
    cases h with
    | @cons _ a _ _ hsort hrest =>
      cases hrest
      cases a with
      | op o => rfl
      | expr e => exact absurd hsort.symm Node.sort_op_ne_sort_expr

/-- The parts of a rebuilt node are the results that it was rebuilt from. -/
lemma Node.parts_over {n : Node} {results : List Node} (h : Results n.parts results) :
    (n.over results).parts = results := by
  cases n with
  | op o => exact Op.parts_over h
  | expr e => exact Expr.parts_over h

/-- A rebuilt node binds the variables that the old one binds. -/
lemma Node.bindingLists_over {n : Node} {results : List Node} (h : Results n.parts results) :
    (n.over results).bindingLists.map Bindings.vars = n.bindingLists.map Bindings.vars := by
  cases n with
  | op o =>
    have hexprs := h.length_exprs
    rw [parts, o.filterMap_expr?_parts] at hexprs
    cases o with
    | extend b input =>
      exact congrArg ([·]) (Bindings.vars_zip (hexprs.trans (List.length_map _)))
    | group keys aggregates input =>
      obtain ⟨hkeys, haggregates⟩ := Op.length_dealt hexprs
      exact congrArg₂ ([·, ·]) (Bindings.vars_zip hkeys) (Bindings.vars_zip haggregates)
    | _ => rfl
  | expr e => rcases e with v | v | ⟨f, args⟩ | ⟨f, distinct, _ | arg⟩ | ⟨negated, op⟩ <;> rfl

/-- A node that is rebuilt from trees in which nothing is bound twice is such a tree again. -/
lemma Node.Distinct.over {n : Node} {results : List Node} (h : n.Distinct)
    (hr : Results n.parts results) (hresults : ∀ a ∈ results, a.Distinct) :
    (n.over results).Distinct := by
  apply Node.Distinct.of_parts
  · intro b hb
    have hvars := List.mem_map_of_mem (f := Bindings.vars) hb
    rw [bindingLists_over hr] at hvars
    obtain ⟨b', hb', heq⟩ := List.mem_map.1 hvars
    show b.vars.Nodup
    rw [← heq]
    exact h.own hb'
  · rw [parts_over hr]
    exact hresults

/-! ### Links of a rebuilt node -/

namespace Node

variable {n p : Node} {l : Link} {results : List Node}

/-- A node keeps its accessors whatever results it is rebuilt from. -/
lemma accessors_over (n : Node) (results : List Node) :
    (n.over results).accessors = n.accessors := by
  cases n with
  | op o => exact o.accessors_over _ _
  | expr e => rfl

/-- A rebuilt node holds as many nodes as the old one, behind each accessor. -/
lemma length_access_over (h : Results n.parts results) (a : Accessor) :
    ((n.over results).access a).length = (n.access a).length := by
  cases n with
  | op o =>
    have hops := h.length_ops
    have hexprs := h.length_exprs
    rw [parts, o.filterMap_op?_parts] at hops
    rw [parts, o.filterMap_expr?_parts] at hexprs
    cases a <;> simp [Node.over, access, Op.children_over hops, Op.exprs_over hexprs, hops, hexprs]
  | expr e =>
    rcases e with v | v | ⟨f, args⟩ | ⟨f, distinct, _ | arg⟩ | ⟨negated, o⟩
    case function =>
      have hargs := h.length_exprs.trans (congrArg List.length (exprs_expr (.function f args)))
      cases a <;> simp [Node.over, Expr.over, access, hargs, Expr.args]
    all_goals cases a <;> rfl

/-- The links of a node are as many for each accessor as that lists nodes. -/
lemma map_fst_branches (n : Node) :
    n.branches.map Prod.fst =
      n.accessors.flatMap fun a => (List.range (n.access a).length).map (Link.mk a) := by
  rw [branches, List.map_flatMap]
  refine List.flatMap_congr fun a _ => ?_
  rw [List.range_eq_range', ← List.zipIdx_map_snd, List.map_map, List.map_map]
  rfl

/-- The links of a rebuilt node are those of the old one and lead to the results in order. -/
lemma branches_over (h : Results n.parts results) :
    (n.over results).branches = (n.branches.map Prod.fst).zip results := by
  apply List.zip_of_prod
  · simp only [map_fst_branches, accessors_over, length_access_over h]
  · rw [map_snd_branches, parts_over h]

/-- What relates parts and results relates what a link leads to before and after. -/
lemma exists_partAt?_over {R : Link → Node → Node → Prop}
    (hsort : ∀ l p a, R l p a → a.sort = p.sort)
    (h : List.Forall₂ (fun b a => R b.1 b.2 a) n.branches results) (hp : n.partAt? l = some p) :
    ∃ a, (n.over results).partAt? l = some a ∧ R l p a := by
  have hresults : Results n.parts results := by
    rw [← n.map_snd_branches, Results, List.forall₂_map_left_iff]
    exact h.imp fun _ _ => hsort _ _ _
  obtain ⟨i, hi⟩ := List.getElem?_of_mem (mem_branches.2 hp)
  obtain ⟨hlt, hget⟩ := List.getElem?_eq_some_iff.1 hi
  have hlt' : i < results.length := h.length_eq ▸ hlt
  have hR := List.forall₂_iff_get.1 h |>.2 i hlt hlt'
  refine ⟨results[i], mem_branches.1 ?_, ?_⟩
  · rw [branches_over hresults]
    apply List.mem_of_getElem? (i := i)
    simp [List.getElem?_zip_eq_some, hi, hlt']
  · simpa [hget] using hR

end Node

end QueryPlan
