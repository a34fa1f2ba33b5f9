import QueryPlan.Proofs.Calls
import QueryPlan.Retarget

/-!
# Replacing by recursion

`Replacers.rewrite` replaces the nodes of a tree by recursion on it: each part is replaced in its
turn, and its result stands in its place in the rebuilt node. No result ever waits. The run that
keeps results on stacks is the same run (`Replacers.tree_eq_rewrite`): the same calls with the same
arguments, the same caller's state and log, and the same tree or error.

`Replacers.rewrite_eq` brings the recursion into one form for all kinds of nodes, in which the
results for the parts are a list. `Replacers.within_steps` is the simulation: performing the steps
of a tree on any stacks, with anything after them, is the recursion, and what comes after finds its
result on top.
-/

namespace QueryPlan.Replacers

variable {σ τ α β : Type}

/-- What happens around the parts of an operator: the depth check, the check of the operator and the
hook come before; the rebuilt operator is checked and handed over together with the old one, and the
other hook is called for the old one, after. -/
def aroundOp (config : Config) (r : Replacers σ) (depth : Nat) (o : Op) (below : RunM σ τ Op) :
    RunM σ τ Op := do
  RunM.checkDepth config depth
  RunM.emit (.entered .replacing (.op o) depth)
  RunM.checkNode (.op o)
  if o.isComposite then RunM.notify r.before o else pure ()
  let rebuilt ← below
  RunM.checkNode (.op rebuilt)
  let result ← answer r.onOp o rebuilt
  if o.isComposite then RunM.notify r.after o else pure ()
  return result

/-- What happens around the parts of an expression. -/
def aroundExpr (config : Config) (r : Replacers σ) (depth : Nat) (e : Expr)
    (below : RunM σ τ Expr) : RunM σ τ Expr := do
  RunM.checkDepth config depth
  RunM.emit (.entered .replacing (.expr e) depth)
  RunM.checkNode (.expr e)
  let rebuilt ← below
  answer r.onExpr e rebuilt

mutual

/-- Replace the nodes of an operator at a depth. -/
def rewriteOp (config : Config) (r : Replacers σ) (depth : Nat) (o : Op) : RunM σ τ Op :=
  r.aroundOp config depth o <|
    match o with
    | .scan table asName => pure (.scan table asName)
    | .empty => pure .empty
    | .filter conditions input => do
      let conditions ← rewriteExprs config r (depth + 1) conditions
      return .filter conditions (← rewriteOp config r (depth + 1) input)
    | .project vars input => return .project vars (← rewriteOp config r (depth + 1) input)
    | .distinct input => return .distinct (← rewriteOp config r (depth + 1) input)
    | .slice offset limit input =>
      return .slice offset limit (← rewriteOp config r (depth + 1) input)
    | .order keys input => do
      let keys ← rewriteKeys config r (depth + 1) keys
      return .order keys (← rewriteOp config r (depth + 1) input)
    | .extend b input => do
      let b ← rewriteBindings config r (depth + 1) b
      return .extend b (← rewriteOp config r (depth + 1) input)
    | .group keys aggregates input => do
      let keys ← rewriteBindings config r (depth + 1) keys
      let aggregates ← rewriteBindings config r (depth + 1) aggregates
      return .group keys aggregates (← rewriteOp config r (depth + 1) input)
    | .join left right method => do
      let left ← rewriteOp config r (depth + 1) left
      return .join left (← rewriteOp config r (depth + 1) right) method
    | .leftJoin left right conditions => do
      let left ← rewriteOp config r (depth + 1) left
      let right ← rewriteOp config r (depth + 1) right
      return .leftJoin left right (← rewriteExprs config r (depth + 1) conditions)
    | .union left right => do
      let left ← rewriteOp config r (depth + 1) left
      return .union left (← rewriteOp config r (depth + 1) right)
    | .minus left right => do
      let left ← rewriteOp config r (depth + 1) left
      return .minus left (← rewriteOp config r (depth + 1) right)
    | .sequence ops => return .sequence (← rewriteOps config r (depth + 1) ops)
    | .disjunction ops => return .disjunction (← rewriteOps config r (depth + 1) ops)

/-- Replace the nodes of an expression at a depth. -/
def rewriteExpr (config : Config) (r : Replacers σ) (depth : Nat) (e : Expr) : RunM σ τ Expr :=
  r.aroundExpr config depth e <|
    match e with
    | .const value => pure (.const value)
    | .var var => pure (.var var)
    | .function f args => return .function f (← rewriteExprs config r (depth + 1) args)
    | .aggregate f distinct none => pure (.aggregate f distinct none)
    | .aggregate f distinct (some arg) =>
      return .aggregate f distinct (some (← rewriteExpr config r (depth + 1) arg))
    | .existence negated op => return .existence negated (← rewriteOp config r (depth + 1) op)

/-- Replace the nodes of the operators of a list in order. -/
def rewriteOps (config : Config) (r : Replacers σ) (depth : Nat) : List Op → RunM σ τ (List Op)
  | [] => pure []
  | o :: os => do
    let o ← rewriteOp config r depth o
    return o :: (← rewriteOps config r depth os)

/-- Replace the nodes of the expressions of a list in order. -/
def rewriteExprs (config : Config) (r : Replacers σ) (depth : Nat) :
    List Expr → RunM σ τ (List Expr)
  | [] => pure []
  | e :: es => do
    let e ← rewriteExpr config r depth e
    return e :: (← rewriteExprs config r depth es)

/-- Replace the nodes of the expressions of sort keys; the directions stay. -/
def rewriteKeys (config : Config) (r : Replacers σ) (depth : Nat) :
    List (SortKey Expr) → RunM σ τ (List (SortKey Expr))
  | [] => pure []
  | ⟨direction, e⟩ :: keys => do
    let e ← rewriteExpr config r depth e
    return ⟨direction, e⟩ :: (← rewriteKeys config r depth keys)

/-- Replace the nodes of bound expressions; the variables stay. -/
def rewriteBindings (config : Config) (r : Replacers σ) (depth : Nat) :
    Bindings Expr → RunM σ τ (Bindings Expr)
  | ⟨entries⟩ => return ⟨← rewriteEntries config r depth entries⟩

/-- Replace the nodes of the bound expressions of some entries. -/
def rewriteEntries (config : Config) (r : Replacers σ) (depth : Nat) :
    List (Var × Expr) → RunM σ τ (List (Var × Expr))
  | [] => pure []
  | (var, e) :: entries => do
    let e ← rewriteExpr config r depth e
    return (var, e) :: (← rewriteEntries config r depth entries)

end

/-- Replace the nodes of a tree of either sort at a depth. -/
def rewrite (config : Config) (r : Replacers σ) (depth : Nat) : Node → RunM σ τ Node
  | .op o => return .op (← rewriteOp config r depth o)
  | .expr e => return .expr (← rewriteExpr config r depth e)

/-! ### One form for all kinds of nodes -/

section

variable (config : Config) (r : Replacers σ) (depth : Nat)

/-- Expressions are rewritten to as many expressions. -/
lemma rewriteExprs_ensures (es : List Expr) :
    (rewriteExprs config r depth es : RunM σ τ _).Ensures (·.length = es.length) := by
  induction es with
  | nil =>
    rw [rewriteExprs]
    exact .pure rfl
  | cons e es ih =>
    rw [rewriteExprs]
    refine (RunM.Ensures.trivial _).bind fun e' _ => ih.bind fun es' h => .pure ?_
    rw [List.length_cons, List.length_cons, h]

/-- Two lists of expressions are rewritten one after the other. -/
lemma rewriteExprs_append (first last : List Expr) (f : List Expr → RunM σ τ β) :
    rewriteExprs config r depth (first ++ last) >>= f =
      rewriteExprs config r depth first >>= fun es =>
        rewriteExprs config r depth last >>= fun es' => f (es ++ es') := by
  induction first generalizing f with
  | nil => rw [List.nil_append, rewriteExprs, pure_bind]; rfl
  | cons e first ih =>
    rw [List.cons_append, rewriteExprs, rewriteExprs]
    simp only [bind_assoc, pure_bind]
    exact bind_congr fun e' => ih fun es => f (e' :: es)

/-- The new keys are the old ones with the results in them. -/
lemma rewriteKeys_eq (keys : List (SortKey Expr)) (f : List (SortKey Expr) → RunM σ τ β) :
    rewriteKeys config r depth keys >>= f =
      rewriteExprs config r depth (keys.map (·.key)) >>= fun es =>
        f (keys.zipWith (fun k e => { k with key := e }) es) := by
  induction keys generalizing f with
  | nil => rw [rewriteKeys, List.map_nil, rewriteExprs]; rfl
  | cons k keys ih =>
    rw [rewriteKeys, List.map_cons, rewriteExprs]
    simp only [bind_assoc, pure_bind]
    exact bind_congr fun e => ih fun keys' => f (⟨k.direction, e⟩ :: keys')

/-- The new bindings are the old variables bound to the results. -/
lemma rewriteBindings_eq (b : Bindings Expr) (f : Bindings Expr → RunM σ τ β) :
    rewriteBindings config r depth b >>= f =
      rewriteExprs config r depth b.values >>= fun es => f ⟨b.vars.zip es⟩ := by
  obtain ⟨entries⟩ := b
  rw [rewriteBindings, Bindings.values, Bindings.vars]
  simp only [bind_assoc, pure_bind]
  induction entries generalizing f with
  | nil => rw [rewriteEntries, List.map_nil, rewriteExprs]; rfl
  | cons p entries ih =>
    rw [rewriteEntries, List.map_cons, rewriteExprs]
    simp only [bind_assoc, pure_bind]
    exact bind_congr fun e => ih fun b => f ⟨(p.1, e) :: b.entries⟩

/-- The results for operators, as a list of nodes. -/
lemma mapM_ops (os : List Op) (f : List Op → List Expr → RunM σ τ β) :
    ((os.map Node.op).mapM (r.rewrite config depth) >>= fun results =>
        f (results.filterMap Node.op?) (results.filterMap Node.expr?)) =
      rewriteOps config r depth os >>= fun os => f os [] := by
  induction os generalizing f with
  | nil => rw [rewriteOps]; rfl
  | cons o os ih =>
    rw [rewriteOps, List.map_cons, List.mapM_cons]
    simp only [rewrite, bind_assoc, pure_bind]
    exact bind_congr fun o' => ih fun os' => f (o' :: os')

/-- Expressions that are rewritten as nodes are rewritten as expressions. -/
lemma mapM_exprs (es : List Expr) (f : List Op → List Expr → RunM σ τ β) :
    ((es.map Node.expr).mapM (r.rewrite config depth) >>= fun results =>
        f (results.filterMap Node.op?) (results.filterMap Node.expr?)) =
      rewriteExprs config r depth es >>= fun es => f [] es := by
  induction es generalizing f with
  | nil => rw [rewriteExprs]; rfl
  | cons e es ih =>
    rw [rewriteExprs, List.map_cons, List.mapM_cons]
    simp only [rewrite, bind_assoc, pure_bind]
    exact bind_congr fun e' => ih fun os es' => f os (e' :: es')

/-- The results for expressions and the operator after them. -/
lemma mapM_unary (es : List Expr) (input : Op) (f : List Op → List Expr → RunM σ τ β) :
    ((es.map Node.expr ++ [Node.op input]).mapM (r.rewrite config depth) >>= fun results =>
        f (results.filterMap Node.op?) (results.filterMap Node.expr?)) =
      rewriteExprs config r depth es >>= fun es =>
        rewriteOp config r depth input >>= fun input => f [input] es := by
  induction es generalizing f with
  | nil =>
    rw [rewriteExprs, List.map_nil, List.nil_append, List.mapM_cons, List.mapM_nil]
    simp only [rewrite, bind_assoc, pure_bind]
    rfl
  | cons e es ih =>
    rw [rewriteExprs, List.map_cons, List.cons_append, List.mapM_cons]
    simp only [rewrite, bind_assoc, pure_bind]
    exact bind_congr fun e' => ih fun os es' => f os (e' :: es')

/-- Two operators and expressions that are rewritten as nodes are rewritten as what they are. -/
lemma mapM_binary (left right : Op) (es : List Expr) (f : List Op → List Expr → RunM σ τ β) :
    (([Node.op left, Node.op right] ++ es.map Node.expr).mapM (r.rewrite config depth) >>=
        fun results => f (results.filterMap Node.op?) (results.filterMap Node.expr?)) =
      rewriteOp config r depth left >>= fun left =>
        rewriteOp config r depth right >>= fun right =>
          rewriteExprs config r depth es >>= fun es => f [left, right] es := by
  rw [List.cons_append, List.cons_append, List.nil_append, List.mapM_cons, List.mapM_cons]
  simp only [rewrite, bind_assoc, pure_bind]
  refine bind_congr fun left' => bind_congr fun right' => ?_
  exact mapM_exprs config r depth es fun os es => f (left' :: right' :: os) es

/-- Between entering and leaving an operator the results for its parts are put in their places. -/
lemma rewriteOp_eq (o : Op) :
    (rewriteOp config r depth o : RunM σ τ Op) = r.aroundOp config depth o (do
      let results ← o.parts.mapM (r.rewrite config (depth + 1))
      return o.over (results.filterMap Node.op?) (results.filterMap Node.expr?)) := by
  let place (os : List Op) (es : List Expr) : RunM σ τ Op := pure (o.over os es)
  refine (rewriteOp.eq_def config r depth o).trans (congrArg _ ?_)
  cases o with
  | scan | empty => rfl
  | filter conditions input =>
    exact (mapM_unary config r (depth + 1) conditions input place).symm
  | project _ input | distinct input | slice _ _ input =>
    refine .trans ?_ (mapM_unary config r (depth + 1) [] input place).symm
    rw [rewriteExprs, pure_bind]
    rfl
  | order keys input =>
    refine .trans (rewriteKeys_eq config r (depth + 1) keys _) ?_
    have h := mapM_unary config r (depth + 1) (keys.map (·.key)) input place
    rw [List.map_map] at h
    exact h.symm
  | extend b input =>
    refine .trans (rewriteBindings_eq config r (depth + 1) b _) ?_
    exact (mapM_unary config r (depth + 1) b.values input place).symm
  | group keys aggregates input =>
    -- one list holds the results for both; those for the keys are its first `keys.size` ones
    have h := mapM_unary config r (depth + 1) (keys.values ++ aggregates.values) input place
    rw [rewriteExprs_append, List.map_append] at h
    refine .trans ?_ h.symm
    refine .trans (rewriteBindings_eq config r (depth + 1) keys _) ?_
    refine (rewriteExprs_ensures config r (depth + 1) keys.values).bind_congr fun ks hks => ?_
    refine (rewriteBindings_eq config r (depth + 1) aggregates _).trans (bind_congr fun as => ?_)
    have hsize : ks.length = keys.size := by rw [hks, Bindings.values, List.length_map]; rfl
    simp only [place, Op.over, List.take_left' hsize, List.drop_left' hsize]
    rfl
  | join left right _ | union left right | minus left right =>
    refine .trans ?_ (mapM_binary config r (depth + 1) left right [] place).symm
    simp only [rewriteExprs, pure_bind]
    rfl
  | leftJoin left right conditions =>
    exact (mapM_binary config r (depth + 1) left right conditions place).symm
  | sequence ops | disjunction ops =>
    exact (mapM_ops config r (depth + 1) ops place).symm

/-- An expression is rewritten over the results for its parts, in their order. -/
lemma rewriteExpr_eq (e : Expr) :
    (rewriteExpr config r depth e : RunM σ τ Expr) = r.aroundExpr config depth e (do
      let results ← e.parts.mapM (r.rewrite config (depth + 1))
      return e.over (results.filterMap Node.op?) (results.filterMap Node.expr?)) := by
  let place (os : List Op) (es : List Expr) : RunM σ τ Expr := pure (e.over os es)
  refine (rewriteExpr.eq_def config r depth e).trans (congrArg _ ?_)
  rcases e with value | var | ⟨f, args⟩ | ⟨f, distinct, _ | arg⟩ | ⟨negated, op⟩
  case const | var | aggregate.none => rfl
  case function => exact (mapM_exprs config r (depth + 1) args place).symm
  case aggregate.some =>
    refine .trans ?_ (mapM_exprs config r (depth + 1) [arg] place).symm
    simp only [rewriteExprs, bind_assoc, pure_bind]
    rfl
  case existence =>
    refine .trans ?_ (mapM_ops config r (depth + 1) [op] place).symm
    simp only [rewriteOps, bind_assoc, pure_bind]
    rfl

/-- A node is entered, its parts are replaced, and it is left over their results. -/
lemma rewrite_eq (n : Node) :
    (r.rewrite config depth n : RunM σ τ Node) = (do
      RunM.checkDepth config depth
      RunM.reach .replacing r.toHooks n depth
      let results ← n.parts.mapM (r.rewrite config (depth + 1))
      r.finish n results) := by
  cases n with
  | op o =>
    rw [rewrite, rewriteOp_eq]
    by_cases h : o.isComposite = true
    · simp only [aroundOp, finish, RunM.reach, RunM.close, bind_assoc, if_pos h, pure_bind]
      rfl
    · simp only [aroundOp, finish, RunM.reach, RunM.close, bind_assoc, if_neg h, pure_bind]
      rfl
  | expr e =>
    rw [rewrite, rewriteExpr_eq]
    simp only [aroundExpr, finish, RunM.reach, bind_assoc, pure_bind]
    rfl

/-- A node is rewritten to one of its sort. -/
lemma rewrite_ensures (n : Node) :
    (r.rewrite config depth n : RunM σ τ Node).Ensures (·.sort = n.sort) := by
  cases n with
  | op o => exact (RunM.Ensures.trivial _).bind fun _ _ => .pure rfl
  | expr e => exact (RunM.Ensures.trivial _).bind fun _ _ => .pure rfl

/-! ### The run with stacks -/

/-- Leaving a node puts its result in the place of those for its parts. -/
lemma within_leave {n : Node} {results : List Node} (h : n.Distinct)
    (hr : Results n.parts results) (below : Rebuilt) (k : RunM σ Rebuilt β) :
    RunM.within (below.pushAll results) (r.perform config (.leave n) >>= fun _ => k) =
      (r.finish n results >>= fun a => RunM.within (below.push a) k : RunM σ τ β) := by
  calc
    _ = RunM.within below
          ((r.finish n results >>= fun a => RunM.modifyOwn (·.push a)) >>= fun _ => k) := by
      apply RunM.ext
      intro s
      have hleave := perform_leave config r h hr below { s with own := below }
      rw [RunM.run_within, RunM.run_within, RunM.run_bind_congr hleave]
    _ = r.finish n results >>= fun a =>
          RunM.within below (RunM.modifyOwn (·.push a) >>= fun _ => k) := by
      rw [bind_assoc]
      exact r.passes_finish n results _ _ _

/-- Each of some parts starts with the results for those before it on the stacks. -/
lemma within_parts {ps : List Node}
    (h : ∀ p ∈ ps, ∀ (built : Rebuilt) (k : RunM σ Rebuilt β),
      RunM.within built (forM (p.steps depth) (r.perform config) >>= fun _ => k) =
        (r.rewrite config depth p >>= fun a => RunM.within (built.push a) k : RunM σ τ β))
    (built : Rebuilt) (k : RunM σ Rebuilt β) :
    RunM.within built (forM (ps.flatMap (·.steps depth)) (r.perform config) >>= fun _ => k) =
      (ps.mapM (r.rewrite config depth) >>= fun results =>
        RunM.within (built.pushAll results) k : RunM σ τ β) := by
  induction ps generalizing built with
  | nil => rfl
  | cons p ps ih =>
    rw [List.flatMap_cons, List.forM_append, bind_assoc, h p (.head _), List.mapM_cons]
    simp only [bind_assoc, pure_bind]
    exact bind_congr fun a => ih (fun q hq => h q (.tail _ hq)) (built.push a)

/-- The steps of a tree, performed on any stacks and followed by anything, are the recursion; what
follows starts with the result on top. -/
theorem within_steps {n : Node} (h : n.Distinct) (built : Rebuilt) (k : RunM σ Rebuilt β) :
    RunM.within built (forM (n.steps depth) (r.perform config) >>= fun _ => k) =
      (r.rewrite config depth n >>= fun a => RunM.within (built.push a) k : RunM σ τ β) := by
  induction n using Node.inductionOnParts generalizing depth built k with
  | step n ih =>
    have hparts := within_parts (τ := τ) config r (depth + 1) fun p (hp : p ∈ n.parts) built k =>
      ih p hp (depth + 1) (h.part hp) built k
    have hresults : (n.parts.mapM (r.rewrite config (depth + 1)) : RunM σ τ _).Ensures
        (Results n.parts) := RunM.Ensures.mapM fun p _ => rewrite_ensures config r _ p
    rw [n.steps_eq, rewrite_eq, List.cons_append, List.forM_cons, List.forM_append,
      List.forM_cons, List.forM_nil]
    simp only [perform, bind_assoc, pure_bind]
    refine (RunM.Passes.checkDepth config depth _ built _).trans (bind_congr fun _ => ?_)
    refine (RunM.Passes.reach _ r.toHooks n depth _ built _).trans (bind_congr fun _ => ?_)
    refine (hparts built _).trans ?_
    refine hresults.bind_congr fun results hr => ?_
    exact within_leave config r h hr built k

end

/-- Replacing the nodes of a tree with stacks is replacing them by recursion. -/
lemma tree_eq (config : Config) (r : Replacers σ) {n : Node} (h : n.Distinct) :
    (r.tree config n : RunM σ τ Node) = r.rewrite config 1 n := by
  cases n with
  | op o =>
    rw [tree, op, drain_enter, within_steps config r 1 h, rewrite, bind_assoc, bind_assoc]
    simp only [pure_bind]
    rfl
  | expr e =>
    rw [tree, expr, drain_enter, within_steps config r 1 h, rewrite, bind_assoc, bind_assoc]
    simp only [pure_bind]
    rfl

/-- Replacing the nodes of a tree with stacks is replacing them by recursion, with or without a
record of the calls. -/
theorem tree_eq_rewrite (config : Config) (r : Replacers σ) {n : Node} (h : n.Distinct) :
    (r.tree config n : RunM σ τ Node) = r.rewrite config 1 n ∧
      (r.recorded.tree config n : RunM (Recorded σ) τ Node) = r.recorded.rewrite config 1 n :=
  ⟨tree_eq config r h, tree_eq config r.recorded h⟩

/-- A count over a table is retargeted by recursion. -/
theorem retarget_countedBy_eq_rewrite :
    (Node.op (.countedBy ⟨"k"⟩ "T")).Distinct ∧
      ((retargetScans "T" "U").tree {} (.op (.countedBy ⟨"k"⟩ "T")) : RunM Unit Unit Node) =
        (retargetScans "T" "U").rewrite {} 1 (.op (.countedBy ⟨"k"⟩ "T")) :=
  ⟨Op.distinct_countedBy _ _, (tree_eq_rewrite {} _ (Op.distinct_countedBy _ _)).1⟩

end QueryPlan.Replacers
