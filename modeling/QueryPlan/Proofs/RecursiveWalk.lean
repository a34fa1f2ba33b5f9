import QueryPlan.Proofs.Calls

/-!
# Walks by recursion

`Visitors.visit` walks a tree by recursion on it, with the order of the parts written out for each
kind of node. The walk that runs off a list of waiting steps is the same run: it makes the same
calls in the same order, leaves the same caller's state, counters and log, and stops with the same
error (`Visitors.walkTree_eq_visit`).

`Visitors.visit_eq` brings the recursion into one form for all kinds of nodes. From there the proof
is an induction on the parts of a tree; `drain_enter` has taken the waiting steps away before.
-/

namespace QueryPlan.Visitors

variable {σ : Type}

/-- What happens around the parts of an operator: the depth check, the note of the depth, the check
of the operator and the hook come before, the operator itself and the other hook after. -/
def aroundOp (config : Config) (v : Visitors σ) (depth : Nat) (o : Op)
    (below : RunM σ Counters Unit) : RunM σ Counters Unit := do
  RunM.checkDepth config depth
  RunM.modifyOwn (·.reached depth)
  RunM.emit (.entered .walking (.op o) depth)
  RunM.checkNode (.op o)
  if o.isComposite then RunM.notify v.before o else pure ()
  below
  RunM.modifyOwn (·.countOp)
  RunM.notify v.onOp o
  if o.isComposite then RunM.notify v.after o else pure ()

/-- What happens around the parts of an expression. -/
def aroundExpr (config : Config) (v : Visitors σ) (depth : Nat) (e : Expr)
    (below : RunM σ Counters Unit) : RunM σ Counters Unit := do
  RunM.checkDepth config depth
  RunM.modifyOwn (·.reached depth)
  RunM.emit (.entered .walking (.expr e) depth)
  RunM.checkNode (.expr e)
  below
  RunM.modifyOwn (·.countExpr)
  RunM.notify v.onExpr e

mutual

/-- Walk an operator at a depth. -/
def visitOp (config : Config) (v : Visitors σ) (depth : Nat) (o : Op) : RunM σ Counters Unit :=
  v.aroundOp config depth o <|
    match o with
    | .scan .. | .empty => pure ()
    | .filter conditions input => do
      visitExprs config v (depth + 1) conditions
      visitOp config v (depth + 1) input
    | .project _ input | .distinct input | .slice _ _ input => visitOp config v (depth + 1) input
    | .order keys input => do
      visitKeys config v (depth + 1) keys
      visitOp config v (depth + 1) input
    | .extend b input => do
      visitBindings config v (depth + 1) b
      visitOp config v (depth + 1) input
    | .group keys aggregates input => do
      visitBindings config v (depth + 1) keys
      visitBindings config v (depth + 1) aggregates
      visitOp config v (depth + 1) input
    | .join left right _ | .union left right | .minus left right => do
      visitOp config v (depth + 1) left
      visitOp config v (depth + 1) right
    | .leftJoin left right conditions => do
      visitOp config v (depth + 1) left
      visitOp config v (depth + 1) right
      visitExprs config v (depth + 1) conditions
    | .sequence ops | .disjunction ops => visitOps config v (depth + 1) ops

/-- Walk an expression at a depth. -/
def visitExpr (config : Config) (v : Visitors σ) (depth : Nat) (e : Expr) : RunM σ Counters Unit :=
  v.aroundExpr config depth e <|
    match e with
    | .const _ | .var _ | .aggregate _ _ none => pure ()
    | .function _ args => visitExprs config v (depth + 1) args
    | .aggregate _ _ (some arg) => visitExpr config v (depth + 1) arg
    | .existence _ op => visitOp config v (depth + 1) op

/-- Walk the operators of a list in order. -/
def visitOps (config : Config) (v : Visitors σ) (depth : Nat) : List Op → RunM σ Counters Unit
  | [] => pure ()
  | o :: os => do
    visitOp config v depth o
    visitOps config v depth os

/-- Walk the expressions of a list in order. -/
def visitExprs (config : Config) (v : Visitors σ) (depth : Nat) : List Expr → RunM σ Counters Unit
  | [] => pure ()
  | e :: es => do
    visitExpr config v depth e
    visitExprs config v depth es

/-- Walk the expressions of sort keys in order. -/
def visitKeys (config : Config) (v : Visitors σ) (depth : Nat) :
    List (SortKey Expr) → RunM σ Counters Unit
  | [] => pure ()
  | ⟨_, e⟩ :: keys => do
    visitExpr config v depth e
    visitKeys config v depth keys

/-- Walk the expressions of a binding list in binding order. -/
def visitBindings (config : Config) (v : Visitors σ) (depth : Nat) :
    Bindings Expr → RunM σ Counters Unit
  | ⟨entries⟩ => visitEntries config v depth entries

/-- Walk the bound expressions of some entries in order. -/
def visitEntries (config : Config) (v : Visitors σ) (depth : Nat) :
    List (Var × Expr) → RunM σ Counters Unit
  | [] => pure ()
  | (_, e) :: entries => do
    visitExpr config v depth e
    visitEntries config v depth entries

end

/-- Walk a tree of either sort at a depth. -/
def visit (config : Config) (v : Visitors σ) (depth : Nat) : Node → RunM σ Counters Unit
  | .op o => visitOp config v depth o
  | .expr e => visitExpr config v depth e

variable (config : Config) (v : Visitors σ) (depth : Nat)

/-- Operators are visited one after the other. -/
lemma visitOps_eq (os : List Op) :
    visitOps config v depth os = forM (os.map .op) (v.visit config depth) := by
  induction os with
  | nil => rw [visitOps, List.map_nil, List.forM_nil]
  | cons o os ih => rw [visitOps, List.map_cons, List.forM_cons, ih]; rfl

/-- Expressions are visited one after the other. -/
lemma visitExprs_eq (es : List Expr) :
    visitExprs config v depth es = forM (es.map .expr) (v.visit config depth) := by
  induction es with
  | nil => rw [visitExprs, List.map_nil, List.forM_nil]
  | cons e es ih => rw [visitExprs, List.map_cons, List.forM_cons, ih]; rfl

/-- Of sort keys the expressions are visited, one after the other. -/
lemma visitKeys_eq (keys : List (SortKey Expr)) :
    visitKeys config v depth keys =
      forM (keys.map fun k => .expr k.key) (v.visit config depth) := by
  induction keys with
  | nil => rw [visitKeys, List.map_nil, List.forM_nil]
  | cons k keys ih => rw [visitKeys, List.map_cons, List.forM_cons, ih]; rfl

/-- Of a binding list the values are visited, one after the other. -/
lemma visitBindings_eq (b : Bindings Expr) :
    visitBindings config v depth b = forM (b.values.map .expr) (v.visit config depth) := by
  obtain ⟨entries⟩ := b
  rw [visitBindings, Bindings.values]
  induction entries with
  | nil => rw [visitEntries, List.map_nil, List.map_nil, List.forM_nil]
  | cons p entries ih =>
    rw [visitEntries, List.map_cons, List.map_cons, List.forM_cons, ih]
    rfl

/-- A loop over one member is the run of this member. -/
lemma forM_singleton (f : Node → RunM σ Counters Unit) (n : Node) : forM [n] f = f n := by
  rw [List.forM_cons, List.forM_nil]
  exact bind_pure _

/-- Between entering and leaving an operator its parts are walked. -/
lemma visitOp_eq (o : Op) :
    visitOp config v depth o =
      v.aroundOp config depth o (forM o.parts (v.visit config (depth + 1))) := by
  have two (m n : Node) : forM [m, n] (v.visit config (depth + 1)) =
      v.visit config (depth + 1) m >>= fun _ => v.visit config (depth + 1) n := by
    rw [List.forM_cons, forM_singleton]
  cases o with
  | scan | empty => rw [visitOp]; rfl
  | filter conditions input =>
    rw [visitOp, Op.parts, List.forM_append, forM_singleton, visitExprs_eq]
    rfl
  | project _ input | distinct input | slice _ _ input =>
    rw [visitOp, Op.parts, forM_singleton]
    rfl
  | order keys input =>
    rw [visitOp, Op.parts, List.forM_append, forM_singleton, visitKeys_eq]
    rfl
  | extend b input =>
    rw [visitOp, Op.parts, List.forM_append, forM_singleton, visitBindings_eq]
    rfl
  | group keys aggregates input =>
    rw [visitOp, Op.parts, List.forM_append, List.forM_append, forM_singleton, visitBindings_eq,
      visitBindings_eq, bind_assoc]
    rfl
  | join left right _ | union left right | minus left right => rw [visitOp, Op.parts, two]; rfl
  | leftJoin left right conditions =>
    rw [visitOp, Op.parts, List.forM_append, two, visitExprs_eq, bind_assoc]
    rfl
  | sequence ops | disjunction ops => rw [visitOp, Op.parts, visitOps_eq]

/-- An expression is visited after its parts, which are visited in order. -/
lemma visitExpr_eq (e : Expr) :
    visitExpr config v depth e =
      v.aroundExpr config depth e (forM e.parts (v.visit config (depth + 1))) := by
  rcases e with value | var | ⟨f, args⟩ | ⟨f, distinct, _ | arg⟩ | ⟨negated, op⟩
  case const | var | aggregate.none => rw [visitExpr]; rfl
  case function => rw [visitExpr, Expr.parts, visitExprs_eq]
  case aggregate.some | existence => rw [visitExpr, Expr.parts, forM_singleton]; rfl

/-- A node is entered, its parts are walked, and it is left. -/
lemma visit_eq (n : Node) :
    v.visit config depth n = (do
      v.perform config (.enter n depth)
      forM n.parts (v.visit config (depth + 1))
      v.perform config (.leave n)) := by
  cases n with
  | op o =>
    rw [visit, visitOp_eq]
    -- what follows the hook stands twice, once for each outcome of the test
    by_cases h : o.isComposite = true
    · simp only [aroundOp, perform, RunM.reach, RunM.close, bind_assoc, if_pos h]
      rfl
    · simp only [aroundOp, perform, RunM.reach, RunM.close, bind_assoc, if_neg h, pure_bind]
      rfl
  | expr e =>
    rw [visit, visitExpr_eq]
    simp only [aroundExpr, perform, RunM.reach, bind_assoc, pure_bind]
    rfl

/-- The recursion performs the steps of the tree in order. -/
lemma visit_eq_forM (n : Node) :
    v.visit config depth n = forM (n.steps depth) (v.perform config) := by
  induction n using Node.inductionOnParts generalizing depth with
  | step n ih =>
    -- on sublists of the parts, since the induction hypothesis is about parts of `n` only
    have hparts (ps : List Node) (h : ∀ p ∈ ps, p ∈ n.parts) :
        forM ps (v.visit config (depth + 1)) =
          forM (ps.flatMap (·.steps (depth + 1))) (v.perform config) := by
      induction ps with
      | nil => rfl
      | cons p ps ihps =>
        rw [List.forM_cons, List.flatMap_cons, List.forM_append, ih p (h p (.head _)),
          ihps fun q hq => h q (.tail _ hq)]
    rw [visit_eq, n.steps_eq, hparts n.parts fun _ hp => hp, List.cons_append, List.forM_cons,
      List.forM_append, List.forM_cons, List.forM_nil, bind_pure_unit]

/-- A walk off the list of waiting steps is the walk by recursion, with or without a record of the
calls. -/
theorem walkTree_eq_visit (n : Node) :
    v.walkTree config n = v.visit config 1 n ∧
      v.recorded.walkTree config n = v.recorded.visit config 1 n := by
  have same {σ : Type} (v : Visitors σ) : v.walkTree config n = v.visit config 1 n := by
    rw [walkTree, drain_enter, visit_eq_forM]
  exact ⟨same v, same v.recorded⟩

end QueryPlan.Visitors
