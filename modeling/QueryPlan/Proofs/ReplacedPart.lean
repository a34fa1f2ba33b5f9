import QueryPlan.Proofs.ReplaceAt
import QueryPlan.Proofs.WellFormed

/-!
# Defects of a node with another part

Another part of the same sort gives a node without a defect none (`Node.defect?_setPart`): a
function keeps its number of arguments. The exception is a group that gets something else among its
aggregates, and that one is defective at the variable in question
(`Node.defect?_setPart_of_not_aggregate`).
-/

namespace QueryPlan

variable {α : Type}

/-- At the place stands what a group binds to a variable as an aggregate. -/
inductive Node.BindsAggregate (v : Var) : Node → Place → Prop where
  | here {keys aggregates input i e} :
    aggregates.entries[i]? = some (v, e) →
    BindsAggregate v (.op (.group keys aggregates input)) [⟨.exprs, keys.size + i⟩]
  | part {n p l π} :
    n.partAt? l = some p →
    BindsAggregate v p π →
    BindsAggregate v n (l :: π)

/-- The node is an aggregate. -/
def Node.isAggregate : Node → Bool
  | op _ => false
  | expr e => e.isAggregate

/-- Another value at one position of a binding list leaves all other pairs as they are. -/
lemma Bindings.zip_vars_set {b : Bindings α} {first rest : List (Var × α)} {v : Var} {x : α}
    (h : b.entries = first ++ (v, x) :: rest) (y : α) :
    b.vars.zip (b.values.set first.length y) = first ++ (v, y) :: rest := by
  have hset : b.values.set first.length y = (first ++ (v, y) :: rest).map Prod.snd := by
    have hlen : first.length = (first.map Prod.snd).length := (List.length_map _).symm
    rw [values, h, List.map_append, List.map_cons, hlen, List.set_append_right _ _ (Nat.le_refl _),
      Nat.sub_self, List.set_cons_zero, List.map_append, List.map_cons]
  have hvars : b.vars = (first ++ (v, y) :: rest).map Prod.fst := by
    rw [vars, h, List.map_append, List.map_cons, List.map_append, List.map_cons]
  rw [hset, hvars]
  exact (List.zip_of_prod rfl rfl).symm

namespace Node

variable {n m p q a : Node} {l : Link} {π : Place} {v : Var} {keys aggregates : Bindings Expr}
  {input : Op}

/-- An aggregate with another part is an aggregate, and nothing else becomes one. -/
lemma isAggregate_setPart (n : Node) (l : Link) (q : Node) :
    (n.setPart l q).isAggregate = n.isAggregate := by
  unfold setPart
  split <;> rfl

/-- What a group binds is an expression. -/
lemma BindsAggregate.exists_expr (hv : n.BindsAggregate v π) (hm : n.at? π = some m) :
    ∃ e, expr e = m := by
  induction hv with
  | here =>
    obtain ⟨p, hp, hm⟩ := at?_cons_eq_some.1 hm
    cases hm
    obtain ⟨e, -, he⟩ := List.mem_map.1 (List.mem_of_getElem? hp)
    exact ⟨e, he⟩
  | part hp _ ih =>
    obtain ⟨p', hp', hm⟩ := at?_cons_eq_some.1 hm
    cases hp.symm.trans hp'
    exact ih hm

/-- What a group binds to its variables as aggregates comes after its keys. -/
lemma partAt?_aggregate (keys aggregates : Bindings Expr) (input : Op) (i : Nat) :
    (op (.group keys aggregates input)).partAt? ⟨.exprs, keys.size + i⟩ =
      aggregates.entries[i]?.map fun p => expr p.2 := by
  have hsize : keys.values.length = keys.size := List.length_map _
  change ((keys.values ++ aggregates.values).map expr)[keys.size + i]? = _
  rw [List.getElem?_map, ← hsize, List.getElem?_append_right (Nat.le_add_right _ _),
    Nat.add_sub_cancel_left, Bindings.values, List.getElem?_map, Option.map_map]
  rfl

/-! A group with another part -/

/-- The child of a group is its input. -/
lemma setPart_input (o : Op) :
    (op (.group keys aggregates input)).setPart ⟨.children, 0⟩ (op o) =
      op (.group keys aggregates o) :=
  congrArg op (Op.over_self (.group keys aggregates o))

/-- The first expressions of a group are its keys. -/
lemma setPart_key {i : Nat} (hi : i < keys.size) (x : Expr) :
    (op (.group keys aggregates input)).setPart ⟨.exprs, i⟩ (expr x) =
      op (.group ⟨keys.vars.zip (keys.values.set i x)⟩ aggregates input) := by
  have hset : (keys.values.set i x).length = keys.size :=
    List.length_set.trans (List.length_map _)
  have hlt : i < keys.values.length := Nat.lt_of_lt_of_eq hi (List.length_map _).symm
  rw [setPart, Op.exprs, List.set_append_left _ _ hlt, Op.over, List.take_left' hset,
    List.drop_left' hset, aggregates.zip_vars_values]
  rfl

/-- After the keys come the aggregates of a group. -/
lemma setPart_aggregate (i : Nat) (x : Expr) :
    (op (.group keys aggregates input)).setPart ⟨.exprs, keys.size + i⟩ (expr x) =
      op (.group keys ⟨aggregates.vars.zip (aggregates.values.set i x)⟩ input) := by
  have hsize : keys.values.length = keys.size := List.length_map _
  rw [setPart, Op.exprs, ← hsize, List.set_append_right _ _ (Nat.le_add_right _ _),
    Nat.add_sub_cancel_left, Op.over, List.take_left' hsize, List.drop_left' hsize,
    keys.zip_vars_values]
  rfl

/-- A group keeps its aggregates unless one of them is replaced. -/
lemma defect?_setPart_group (h : (op (.group keys aggregates input)).defect? = none)
    (hp : (op (.group keys aggregates input)).partAt? l = some p) (hq : q.sort = p.sort)
    (hagg : ∀ v, BindsAggregate v (op (.group keys aggregates input)) [l] → q.isAggregate = true) :
    ((op (.group keys aggregates input)).setPart l q).defect? = none := by
  have haggregates := defect?_group_eq_none_iff.1 h
  cases replaces hp hq with
  | @children _ i _ a hi =>
    cases i with
    | zero =>
      rw [setPart_input]
      exact h
    | succ i => cases hi
  | @exprs _ i y x hx =>
    by_cases hi : i < keys.size
    · rw [setPart_key hi]
      exact h
    · obtain ⟨j, rfl⟩ := Nat.exists_eq_add_of_le (Nat.le_of_not_lt hi)
      have hsize : keys.values.length = keys.size := List.length_map _
      have hget : aggregates.values[j]? = some y := by
        rw [Op.exprs, ← hsize, List.getElem?_append_right (Nat.le_add_right _ _),
          Nat.add_sub_cancel_left] at hx
        exact hx
      rw [Bindings.values, List.getElem?_map, Option.map_eq_some_iff] at hget
      obtain ⟨⟨v, e⟩, hentry, -⟩ := hget
      have hvalues : (⟨aggregates.vars.zip (aggregates.values.set j x)⟩ : Bindings Expr).values =
          aggregates.values.set j x :=
        Bindings.values_zip (List.length_set.trans (List.length_map _))
      rw [setPart_aggregate]
      refine defect?_group_eq_none_iff.2 ?_
      rw [hvalues]
      intro e he
      rcases List.mem_or_eq_of_mem_set he with he | rfl
      · exact haggregates e he
      · exact hagg v (.here hentry)

/-- A node without a defect has none with another part, unless a group gets something else among its
aggregates. -/
lemma defect?_setPart (h : n.defect? = none) (hp : n.partAt? l = some p) (hq : q.sort = p.sort)
    (hagg : ∀ v, n.BindsAggregate v [l] → q.isAggregate = true) :
    (n.setPart l q).defect? = none := by
  rcases n with o | e
  · cases o with
    | group keys aggregates input => exact defect?_setPart_group h hp hq hagg
    | _ => cases replaces hp hq <;> rfl
  · cases replaces hp hq with
    | args =>
      refine defect?_function_eq_none_iff.2 ?_
      rw [List.length_set]
      exact defect?_function_eq_none_iff.1 h
    | argument | operator => rfl

/-- What a group without a defect binds as an aggregate is one. -/
lemma isAggregate_of_bindsAggregate (h : n.defect? = none) (hv : n.BindsAggregate v [l])
    (hp : n.partAt? l = some p) : p.isAggregate = true := by
  cases hv with
  | @here keys aggregates input i e hentry =>
    rw [partAt?_aggregate, hentry] at hp
    cases hp
    exact defect?_group_eq_none_iff.1 h e (List.mem_map_of_mem (List.mem_of_getElem? hentry))
  | part _ hv => cases hv

/-- A tree put below a node gives the node a defect only as a part of it. -/
lemma defect?_setPart_replaceAt (h : n.defect? = none) (hp : n.partAt? l = some p)
    (hm : p.at? π = some m) (ha : a.sort = m.sort)
    (hagg : ∀ v, n.BindsAggregate v (l :: π) → a.isAggregate = true) :
    (n.setPart l (p.replaceAt a π)).defect? = none := by
  refine defect?_setPart h hp (sort_replaceAt hm ha) fun v hv => ?_
  cases π with
  | nil => exact hagg v hv
  | cons l' π =>
    obtain ⟨p', hp', -⟩ := at?_cons_eq_some.1 hm
    rw [replaceAt_cons hp', isAggregate_setPart]
    exact isAggregate_of_bindsAggregate h hv hp

/-- A group that gets something else among its aggregates is defective there. -/
lemma defect?_setPart_of_not_aggregate (h : n.defect? = none) (hv : n.BindsAggregate v [l])
    {x : Expr} (hx : x.isAggregate = false) :
    (n.setPart l (expr x)).defect? = some (.notAggregate v x) := by
  cases hv with
  | @here keys aggregates input i e hentry =>
    have haggregates := defect?_group_eq_none_iff.1 h
    obtain ⟨hlt, hget⟩ := List.getElem?_eq_some_iff.1 hentry
    have hentries : aggregates.entries =
        aggregates.entries.take i ++ (v, e) :: aggregates.entries.drop (i + 1) := by
      rw [← hget, ← List.drop_eq_getElem_cons hlt, List.take_append_drop]
    have hset := Bindings.zip_vars_set hentries x
    rw [List.length_take_of_le (Nat.le_of_lt hlt)] at hset
    rw [setPart_aggregate]
    refine defect?_group_eq_some_iff.2 ⟨_, v, x, _, hset, fun p hp => ?_, hx, rfl⟩
    exact haggregates p.2 (List.mem_map_of_mem (List.mem_of_mem_take hp))
  | part _ hv => cases hv

end Node

end QueryPlan
