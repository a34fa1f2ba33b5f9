import Mathlib.Data.List.Basic
import QueryPlan.Proofs.Run
import QueryPlan.Proofs.Subtree
import QueryPlan.Replace

/-!
# Rebuilding a node from results

`Op.over` and `Expr.over` put other operators and expressions in the place of those that a node
holds. `Op.rebuild_run` and `Expr.rebuild_run` say that rebuilding does just that with the results
on top of the two stacks and leaves what is below: the results must be as many as the node holds, in
the order in which they were finished.

`Rebuilt.pushAll` is how the results for some parts come to lie on the stacks.
-/

namespace QueryPlan

/-! ### Binding lists -/

namespace Bindings

variable {α β : Type}

/-- The next of some different variables is added, and the others can follow. -/
lemma add_of_nodup {b : Bindings α} {v : Var} {vs : List Var} (h : (b.vars ++ v :: vs).Nodup)
    (a : α) :
    b.add v a = .ok ⟨b.entries ++ [(v, a)]⟩ ∧
      ((⟨b.entries ++ [(v, a)]⟩ : Bindings α).vars ++ vs).Nodup := by
  have hv : v ∉ b.vars := fun hmem => (List.nodup_append.1 h).2.2 _ hmem _ (.head _) rfl
  refine ⟨add_eq_ok_iff.2 ⟨hv, rfl⟩, ?_⟩
  rw [vars, List.map_append, List.append_assoc]
  exact h

/-- Pairs with new and different variables can all be added. -/
lemma foldlM_add {pairs : List (Var × α)} {b : Bindings α}
    (h : (b.vars ++ pairs.map (·.1)).Nodup) :
    pairs.foldlM (fun b p => b.add p.1 p.2) b = .ok ⟨b.entries ++ pairs⟩ := by
  induction pairs generalizing b with
  | nil => rw [List.append_nil]; rfl
  | cons p pairs ih =>
    obtain ⟨hadd, hrest⟩ := add_of_nodup h p.2
    rw [List.foldlM_cons, hadd]
    change pairs.foldlM _ _ = _
    rw [ih hrest, List.append_assoc, List.singleton_append]

/-- Pairs with different variables make the list that has them as its entries. -/
lemma ofList?_eq_ok {pairs : List (Var × α)} (h : (pairs.map (·.1)).Nodup) :
    ofList? pairs = .ok ⟨pairs⟩ :=
  foldlM_add (b := empty) h

/-- A list with different variables can be bound to as many new values. -/
lemma rebind_eq_ok {b : Bindings α} {values : List β} (h : b.Distinct)
    (hlen : values.length = b.size) : b.rebind values = .ok ⟨b.vars.zip values⟩ := by
  apply ofList?_eq_ok
  rw [List.map_fst_zip]
  · exact h
  · rw [hlen, vars, List.length_map]
    exact Nat.le_refl _

end Bindings

/-! ### Other parts in the same node -/

/-- An operator with other operators and expressions in the place of those that it holds. -/
def Op.over (o : Op) (ops : List Op) (exprs : List Expr) : Op :=
  match o with
  | scan .. | empty => o
  | filter _ input => filter exprs (ops.headD input)
  | project vars input => project vars (ops.headD input)
  | distinct input => distinct (ops.headD input)
  | slice offset limit input => slice offset limit (ops.headD input)
  | order keys input =>
    order (keys.zipWith (fun k e => { k with key := e }) exprs) (ops.headD input)
  | extend b input => extend ⟨b.vars.zip exprs⟩ (ops.headD input)
  | group keys aggregates input =>
    group ⟨keys.vars.zip (exprs.take keys.size)⟩ ⟨aggregates.vars.zip (exprs.drop keys.size)⟩
      (ops.headD input)
  | join left right method => join (ops.headD left) (ops.tail.headD right) method
  | leftJoin left right _ => leftJoin (ops.headD left) (ops.tail.headD right) exprs
  | union left right => union (ops.headD left) (ops.tail.headD right)
  | minus left right => minus (ops.headD left) (ops.tail.headD right)
  | sequence _ => sequence ops
  | disjunction _ => disjunction ops

/-- An expression with other operators and expressions in the place of those that it holds. -/
def Expr.over (e : Expr) (ops : List Op) (exprs : List Expr) : Expr :=
  match e with
  | const _ | var _ | aggregate _ _ none => e
  | function f _ => function f exprs
  | aggregate f distinct (some arg) => aggregate f distinct (some (exprs.headD arg))
  | existence negated op => existence negated (ops.headD op)

/-- A node with results in the place of its parts. -/
def Node.over : Node → List Node → Node
  | op o, results => op (o.over (results.filterMap op?) (results.filterMap expr?))
  | expr e, results => expr (e.over (results.filterMap op?) (results.filterMap expr?))

/-- The operators that a node holds. -/
def Node.ops (n : Node) : List Op := n.parts.filterMap op?

/-- The expressions that a node holds. -/
def Node.exprs (n : Node) : List Expr := n.parts.filterMap expr?

/-- Expressions that are taken as nodes are read back. -/
lemma Node.filterMap_expr?_map (es : List Expr) : (es.map expr).filterMap expr? = es :=
  (Op.filterMap_expr?_map_expr id es).trans (List.map_id es)

/-- The expressions that an expression holds are its arguments. -/
lemma Node.exprs_expr (e : Expr) : (expr e).exprs = e.args := by
  rcases e with v | v | ⟨f, args⟩ | ⟨f, d, _ | arg⟩ | ⟨n, o⟩
  case function => exact filterMap_expr?_map args
  all_goals rfl

/-- A function holds no operator. -/
lemma Node.ops_function (f : Func) (args : List Expr) : (expr (.function f args)).ops = [] :=
  Op.filterMap_op?_map_expr id args

/-! ### Taking results off the stacks -/

namespace Gather

variable {parent : String} {os ops : List Op} {es exprs : List Expr} {count : Nat}

/-- Operators that were pushed are taken off the stack in the order of the pushing. -/
lemma ops_run (h : os.length = count) :
    (Gather.ops count parent).run ⟨os.reverse ++ ops, exprs⟩ = .ok (os, ⟨ops, exprs⟩) := by
  have hlen : os.reverse.length = count := by rw [List.length_reverse, h]
  change (if count ≤ _ then _ else _) = _
  rw [if_pos (by rw [List.length_append, hlen]; exact Nat.le_add_right ..)]
  rw [List.take_left' hlen, List.drop_left' hlen, List.reverse_reverse]

/-- Expressions that were pushed are taken off the stack in the order of the pushing. -/
lemma exprs_run (h : es.length = count) :
    (Gather.exprs count parent).run ⟨ops, es.reverse ++ exprs⟩ = .ok (es, ⟨ops, exprs⟩) := by
  have hlen : es.reverse.length = count := by rw [List.length_reverse, h]
  change (if count ≤ _ then _ else _) = _
  rw [if_pos (by rw [List.length_append, hlen]; exact Nat.le_add_right ..)]
  rw [List.take_left' hlen, List.drop_left' hlen, List.reverse_reverse]

/-- Gathering goes on with the stacks as its first part leaves them. -/
lemma bind_of_ok {α β : Type} {x : Gather α} {f : α → Gather β} {built rest : Rebuilt} {a : α}
    (h : x.run built = .ok (a, rest)) : (x >>= f).run built = (f a).run rest := by
  rw [StateT.run_bind, h]
  rfl

/-- A binding list is rebound without touching the stacks. -/
lemma bindings_run {b : Bindings Expr} {built : Rebuilt} (h : b.Distinct)
    (hlen : es.length = b.size) :
    (bindings b es).run built = .ok (⟨b.vars.zip es⟩, built) := by
  rw [bindings, Bindings.rebind_eq_ok h hlen]
  rfl

end Gather

/-- Rebuilding an operator takes the results for what it holds off the stacks. -/
lemma Op.rebuild_run {o : Op} {os : List Op} {es : List Expr} (h : (Node.op o).Distinct)
    (hos : os.length = o.children.length) (hes : es.length = o.exprs.length) (below : Rebuilt) :
    o.rebuild.run ⟨os.reverse ++ below.ops, es.reverse ++ below.exprs⟩ =
      .ok (o.over os es, below) := by
  cases o with
  | scan | empty =>
    cases List.length_eq_zero_iff.1 hos
    cases List.length_eq_zero_iff.1 hes
    rfl
  | filter conditions input =>
    obtain ⟨a, rfl⟩ := List.length_eq_one_iff.1 hos
    exact Gather.bind_of_ok (Gather.exprs_run hes)
  | project | distinct | slice =>
    obtain ⟨a, rfl⟩ := List.length_eq_one_iff.1 hos
    cases List.length_eq_zero_iff.1 hes
    rfl
  | order keys input =>
    obtain ⟨a, rfl⟩ := List.length_eq_one_iff.1 hos
    have hkeys : es.length = keys.length := by rw [hes, exprs, List.length_map]
    exact Gather.bind_of_ok (Gather.exprs_run hkeys)
  | extend b input =>
    obtain ⟨a, rfl⟩ := List.length_eq_one_iff.1 hos
    have hb : es.length = b.size := by rw [hes, exprs, Bindings.values, List.length_map]; rfl
    refine (Gather.bind_of_ok (Gather.exprs_run hb)).trans ?_
    exact Gather.bind_of_ok (Gather.bindings_run (h.own (.head _)) hb)
  | group keys aggregates input =>
    -- the aggregates were finished after the keys, so they come off first
    obtain ⟨a, rfl⟩ := List.length_eq_one_iff.1 hos
    have hsum : es.length = keys.size + aggregates.size := by
      rw [hes, exprs, List.length_append, Bindings.values, Bindings.values, List.length_map,
        List.length_map]
      rfl
    have hkeys : (es.take keys.size).length = keys.size := by rw [List.length_take]; omega
    have haggs : (es.drop keys.size).length = aggregates.size := by rw [List.length_drop]; omega
    rw [← List.take_append_drop keys.size es, List.reverse_append, List.append_assoc]
    refine (Gather.bind_of_ok (Gather.exprs_run haggs)).trans ?_
    refine (Gather.bind_of_ok (Gather.exprs_run hkeys)).trans ?_
    refine (Gather.bind_of_ok (Gather.bindings_run (h.own (.head _)) hkeys)).trans ?_
    refine (Gather.bind_of_ok (Gather.bindings_run (h.own (.tail _ (.head _))) haggs)).trans ?_
    rw [List.take_append_drop]
    rfl
  | join | union | minus =>
    obtain ⟨a, b, rfl⟩ := List.length_eq_two.1 hos
    cases List.length_eq_zero_iff.1 hes
    rfl
  | leftJoin left right conditions =>
    obtain ⟨a, b, rfl⟩ := List.length_eq_two.1 hos
    exact Gather.bind_of_ok (Gather.exprs_run hes)
  | sequence | disjunction =>
    cases List.length_eq_zero_iff.1 hes
    exact Gather.bind_of_ok (Gather.ops_run hos)

/-- An expression is rebuilt from as many results as it holds parts, and no more are used. -/
lemma Expr.rebuild_run {e : Expr} {os : List Op} {es : List Expr}
    (hos : os.length = (Node.expr e).ops.length) (hes : es.length = e.args.length)
    (below : Rebuilt) :
    e.rebuild.run ⟨os.reverse ++ below.ops, es.reverse ++ below.exprs⟩ =
      .ok (e.over os es, below) := by
  cases e with
  | const | var =>
    cases List.length_eq_zero_iff.1 hos
    cases List.length_eq_zero_iff.1 hes
    rfl
  | function f args =>
    rw [Node.ops_function] at hos
    cases List.length_eq_zero_iff.1 hos
    exact Gather.bind_of_ok (Gather.exprs_run hes)
  | aggregate f distinct arg =>
    cases arg with
    | none =>
      cases List.length_eq_zero_iff.1 hos
      cases List.length_eq_zero_iff.1 hes
      rfl
    | some arg =>
      obtain ⟨a, rfl⟩ := List.length_eq_one_iff.1 hes
      cases List.length_eq_zero_iff.1 hos
      rfl
  | existence negated op =>
    obtain ⟨a, rfl⟩ := List.length_eq_one_iff.1 hos
    cases List.length_eq_zero_iff.1 hes
    rfl

/-! ### Results for some parts -/

/-- One result for each part, of the sort of the part. -/
abbrev Results (parts results : List Node) : Prop :=
  List.Forall₂ (fun p a => a.sort = p.sort) parts results

/-- Operators and expressions are of different sorts. -/
lemma Node.sort_op_ne_sort_expr {o : Op} {e : Expr} : (op o).sort ≠ (expr e).sort := by
  change "operator" ≠ "expression"
  decide

/-- There are as many operators among the results as among the parts. -/
lemma Results.length_ops {parts results : List Node} (h : Results parts results) :
    (results.filterMap Node.op?).length = (parts.filterMap Node.op?).length := by
  induction h with
  | nil => rfl
  | @cons p a _ _ hsort _ ih =>
    cases p <;> cases a
    · exact congrArg (· + 1) ih
    · exact absurd hsort.symm Node.sort_op_ne_sort_expr
    · exact absurd hsort Node.sort_op_ne_sort_expr
    · exact ih

/-- What relates parts and results of the same sorts relates the expressions among them. -/
lemma forall₂_exprs {R : Node → Node → Prop} (hsort : ∀ p a, R p a → a.sort = p.sort)
    {parts results : List Node} (h : List.Forall₂ R parts results) :
    List.Forall₂ (fun e a => R (.expr e) (.expr a)) (parts.filterMap Node.expr?)
      (results.filterMap Node.expr?) := by
  induction h with
  | nil => exact .nil
  | @cons p a _ _ hpa _ ih =>
    cases p <;> cases a
    · exact ih
    · exact absurd (hsort _ _ hpa).symm Node.sort_op_ne_sort_expr
    · exact absurd (hsort _ _ hpa) Node.sort_op_ne_sort_expr
    · exact .cons hpa ih

/-- There are as many expressions among the results as among the parts. -/
lemma Results.length_exprs {parts results : List Node} (h : Results parts results) :
    (results.filterMap Node.expr?).length = (parts.filterMap Node.expr?).length :=
  (forall₂_exprs (fun _ _ h => h) h).length_eq.symm

namespace Rebuilt

/-- One more result on the stack of its sort. -/
def push (built : Rebuilt) : Node → Rebuilt
  | .op o => { built with ops := o :: built.ops }
  | .expr e => { built with exprs := e :: built.exprs }

/-- More results, the last one on top. -/
def pushAll (built : Rebuilt) (results : List Node) : Rebuilt := results.foldl push built

/-- Results are pushed one list after the other. -/
lemma pushAll_append (built : Rebuilt) (first last : List Node) :
    built.pushAll (first ++ last) = (built.pushAll first).pushAll last :=
  List.foldl_append

/-- The results lie on the stacks of their sorts, the last ones on top. -/
lemma pushAll_eq (built : Rebuilt) (results : List Node) :
    built.pushAll results =
      ⟨(results.filterMap Node.op?).reverse ++ built.ops,
        (results.filterMap Node.expr?).reverse ++ built.exprs⟩ := by
  induction results generalizing built with
  | nil => rfl
  | cons a results ih =>
    change (built.push a).pushAll results = _
    rw [ih]
    cases a with
    | op o =>
      change _ = (⟨(o :: results.filterMap Node.op?).reverse ++ _, _⟩ : Rebuilt)
      rw [List.reverse_cons, List.append_assoc]
      rfl
    | expr e =>
      change _ = (⟨_, (e :: results.filterMap Node.expr?).reverse ++ _⟩ : Rebuilt)
      rw [List.reverse_cons, List.append_assoc]
      rfl

end Rebuilt

/-- An operator is rebuilt from the results for its parts, and what lies below them stays. -/
lemma Op.rebuild_pushAll {o : Op} {results : List Node} (h : (Node.op o).Distinct)
    (hr : Results o.parts results) (below : Rebuilt) :
    o.rebuild.run (below.pushAll results) =
      .ok (o.over (results.filterMap Node.op?) (results.filterMap Node.expr?), below) := by
  rw [below.pushAll_eq]
  apply Op.rebuild_run h
  · rw [hr.length_ops, o.filterMap_op?_parts]
  · rw [hr.length_exprs, o.filterMap_expr?_parts]

/-- An expression is rebuilt from the results for its parts, and what lies below them stays. -/
lemma Expr.rebuild_pushAll {e : Expr} {results : List Node} (hr : Results e.parts results)
    (below : Rebuilt) :
    e.rebuild.run (below.pushAll results) =
      .ok (e.over (results.filterMap Node.op?) (results.filterMap Node.expr?), below) := by
  rw [below.pushAll_eq]
  apply Expr.rebuild_run
  · exact hr.length_ops
  · rw [hr.length_exprs]
    exact congrArg List.length (Node.exprs_expr e)

/-- A node of either sort, rebuilt from the stacks. -/
def Node.rebuild : Node → Gather Node
  | op o => return op (← o.rebuild)
  | expr e => return expr (← e.rebuild)

/-- Rebuilding a node on top of the results for its parts. -/
lemma Node.rebuild_pushAll {n : Node} {results : List Node} (h : n.Distinct)
    (hr : Results n.parts results) (below : Rebuilt) :
    n.rebuild.run (below.pushAll results) = .ok (n.over results, below) := by
  cases n with
  | op o => exact Gather.bind_of_ok (Op.rebuild_pushAll h hr below)
  | expr e => exact Gather.bind_of_ok (Expr.rebuild_pushAll hr below)

/-! ### Gathering during a run -/

namespace Replacers

variable {σ τ α β : Type} {c : Gather α}

/-- A gathering that succeeds gives its result and leaves the stacks that it leaves. -/
lemma gather_of_ok {s : Session σ Rebuilt} {a own} (h : c.run s.own = .ok (a, own)) :
    (gather c : RunM σ Rebuilt α).run s = (.ok a, { s with own }) := by
  dsimp only [gather, ExceptT.run, ExceptT.mk]
  rw [h]

/-- A gathering that fails ends the run and leaves the session as it is. -/
lemma gather_of_error {s : Session σ Rebuilt} {e} (h : c.run s.own = .error e) :
    (gather c : RunM σ Rebuilt α).run s = (.error e, s) := by
  dsimp only [gather, ExceptT.run, ExceptT.mk]
  rw [h]

/-- What leaving a node does once there are results for its parts. -/
def finish (r : Replacers σ) : Node → List Node → RunM σ τ Node
  | .op o, results => do
    let rebuilt := o.over (results.filterMap Node.op?) (results.filterMap Node.expr?)
    RunM.checkNode (.op rebuilt)
    let result ← answer r.onOp o rebuilt
    RunM.close r.toHooks o
    return .op result
  | .expr e, results => do
    let rebuilt := e.over (results.filterMap Node.op?) (results.filterMap Node.expr?)
    return .expr (← answer r.onExpr e rebuilt)

/-- An answer of a replacer does not look at the stacks. -/
lemma passes_answer (c : Option (α → α → CallerM σ α)) (old rebuilt : α) :
    RunM.Passes (answer c old rebuilt : RunM σ Rebuilt α) (answer c old rebuilt : RunM σ τ α) := by
  cases c with
  | none => exact .pure rebuilt
  | some c => exact .call _

/-- The rebuilding of a node from given results does not look at the stacks. -/
lemma passes_finish (r : Replacers σ) (n : Node) (results : List Node) :
    RunM.Passes (r.finish n results : RunM σ Rebuilt Node)
      (r.finish n results : RunM σ τ Node) := by
  cases n with
  | op o =>
    refine (RunM.Passes.checkNode _).bind fun _ => ?_
    refine (passes_answer _ _ _).bind fun _ => ?_
    exact (RunM.Passes.close _ _).bind fun _ => .pure _
  | expr e => exact (passes_answer _ _ _).bind fun _ => .pure _

/-- Leaving a node takes the results for its parts off the stacks and leaves its own. -/
lemma perform_leave (config : Config) (r : Replacers σ) {n : Node} {results : List Node}
    (h : n.Distinct) (hr : Results n.parts results) (below : Rebuilt) (s : Session σ Rebuilt) :
    (r.perform config (.leave n)).run { s with own := below.pushAll results } =
      (r.finish n results >>= fun a => RunM.modifyOwn (·.push a)).run { s with own := below } := by
  cases n with
  | op o =>
    refine (RunM.bind_of_ok (gather_of_ok (Op.rebuild_pushAll h hr below))).trans ?_
    simp only [finish, bind_assoc, pure_bind]
    rfl
  | expr e =>
    refine (RunM.bind_of_ok (gather_of_ok (Expr.rebuild_pushAll hr below))).trans ?_
    simp only [finish, bind_assoc, pure_bind]
    rfl

end Replacers

end QueryPlan
