import QueryPlan.Schedule
import QueryPlan.Session

/-!
# Replacing nodes

The nodes of a tree are replaced from the bottom up. Each node is rebuilt from the results for its
parts and handed, together with the old node, to the callback of its sort, whose answer stands in
its place. The order of callbacks is that of a walk.

Results wait on two stacks, one for each sort, until the node above is left and gathers as many as
it has parts. The part that was finished last is on top.
-/

namespace QueryPlan

/-- Results that wait for the node above them, the last one first. -/
structure Rebuilt where
  ops : List Op := []
  exprs : List Expr := []

/-- Take results off the stacks. -/
abbrev Gather := StateT Rebuilt (Except RunError)

namespace Gather

/-- The error of a node for which no results are left. -/
def missing (parent : String) : RunError := .malformed parent "rebuilt children missing"

/-- The last operator. -/
def op (parent : String) : Gather Op := fun built =>
  match built.ops with
  | o :: rest => .ok (o, { built with ops := rest })
  | [] => .error (missing parent)

/-- The last expression. -/
def expr (parent : String) : Gather Expr := fun built =>
  match built.exprs with
  | e :: rest => .ok (e, { built with exprs := rest })
  | [] => .error (missing parent)

/-- The last `count` operators, in the order in which they were finished. -/
def ops (count : Nat) (parent : String) : Gather (List Op) := fun built =>
  if count ≤ built.ops.length then
    .ok ((built.ops.take count).reverse, { built with ops := built.ops.drop count })
  else .error (missing parent)

/-- The last `count` expressions, in the order in which they were finished. -/
def exprs (count : Nat) (parent : String) : Gather (List Expr) := fun built =>
  if count ≤ built.exprs.length then
    .ok ((built.exprs.take count).reverse, { built with exprs := built.exprs.drop count })
  else .error (missing parent)

/-- The variables of a binding list, in order, with expressions for them. -/
def bindings (b : Bindings Expr) (values : List Expr) : Gather (Bindings Expr) :=
  match b.rebind values with
  | .ok c => pure c
  | .error cause => throw (.duplicate cause)

end Gather

/-- An operator of the same kind and with the same attributes, over the results for its parts. -/
def Op.rebuild (o : Op) : Gather Op :=
  match o with
  | scan .. | empty => pure o
  | filter conditions _ => do
    let conditions ← Gather.exprs conditions.length o.name
    return filter conditions (← Gather.op o.name)
  | project vars _ => return project vars (← Gather.op o.name)
  | distinct _ => return distinct (← Gather.op o.name)
  | slice offset limit _ => return slice offset limit (← Gather.op o.name)
  | order keys _ => do
    let exprs ← Gather.exprs keys.length o.name
    return order (keys.zipWith (fun k e => { k with key := e }) exprs) (← Gather.op o.name)
  | extend b _ => do
    let b ← Gather.bindings b (← Gather.exprs b.size o.name)
    return extend b (← Gather.op o.name)
  | group keys aggregates _ => do
    let newAggregates ← Gather.exprs aggregates.size o.name
    let newKeys ← Gather.exprs keys.size o.name
    let keys ← Gather.bindings keys newKeys
    let aggregates ← Gather.bindings aggregates newAggregates
    return group keys aggregates (← Gather.op o.name)
  | join _ _ method => do
    let right ← Gather.op o.name
    return join (← Gather.op o.name) right method
  | leftJoin _ _ conditions => do
    let conditions ← Gather.exprs conditions.length o.name
    let right ← Gather.op o.name
    return leftJoin (← Gather.op o.name) right conditions
  | union _ _ => do
    let right ← Gather.op o.name
    return union (← Gather.op o.name) right
  | minus _ _ => do
    let right ← Gather.op o.name
    return minus (← Gather.op o.name) right
  | sequence ops => return sequence (← Gather.ops ops.length o.name)
  | disjunction ops => return disjunction (← Gather.ops ops.length o.name)

/-- An expression of the same kind and with the same attributes, over the results for its parts. -/
def Expr.rebuild (e : Expr) : Gather Expr :=
  match e with
  | const _ | var _ => pure e
  | function f args => return function f (← Gather.exprs args.length e.name)
  | aggregate f distinct none => pure (aggregate f distinct none)
  | aggregate f distinct (some _) => return aggregate f distinct (some (← Gather.expr e.name))
  | existence negated _ => return existence negated (← Gather.op e.name)

/-- The callbacks that replace nodes; each may be missing, and a missing one keeps the rebuilt node.
The first argument is the old node, the second the rebuilt one. -/
structure Replacers (σ : Type) extends Hooks σ where
  /-- Called on every operator. -/
  onOp : Option (Op → Op → CallerM σ Op) := none
  /-- Called on every expression. -/
  onExpr : Option (Expr → Expr → CallerM σ Expr) := none

namespace Replacers

variable {σ τ α : Type}

/-- Take results off the stacks of a run. -/
def gather (c : Gather α) : RunM σ Rebuilt α :=
  ExceptT.mk fun s =>
    match c.run s.own with
    | .ok (a, own) => (.ok a, { s with own })
    | .error e => (.error e, s)

/-- What stands in the place of an old node. -/
def answer (c : Option (α → α → CallerM σ α)) (old rebuilt : α) : RunM σ τ α :=
  match c with
  | some c => RunM.call (c old rebuilt)
  | none => pure rebuilt

/-- One step of a run that replaces nodes. -/
def perform (config : Config) (r : Replacers σ) : Step → RunM σ Rebuilt Unit
  | .enter n depth => do
    RunM.checkDepth config depth
    RunM.reach .replacing r.toHooks n depth
  | .leave (.op o) => do
    let rebuilt ← gather o.rebuild
    RunM.checkNode (.op rebuilt)
    let result ← answer r.onOp o rebuilt
    RunM.close r.toHooks o
    RunM.modifyOwn fun built => { built with ops := result :: built.ops }
  | .leave (.expr e) => do
    let rebuilt ← gather e.rebuild
    let result ← answer r.onExpr e rebuilt
    RunM.modifyOwn fun built => { built with exprs := result :: built.exprs }

/-- Replace the nodes of an operator. -/
def op (config : Config) (r : Replacers σ) (o : Op) : RunM σ τ Op :=
  RunM.within {} do
    drain (r.perform config) [.enter (.op o) 1]
    gather (Gather.op o.name)

/-- Replace the nodes of an expression. -/
def expr (config : Config) (r : Replacers σ) (e : Expr) : RunM σ τ Expr :=
  RunM.within {} do
    drain (r.perform config) [.enter (.expr e) 1]
    gather (Gather.expr e.name)

/-- Replace the nodes of the expressions of a list, one expression after the other. -/
def exprs (config : Config) (r : Replacers σ) (es : List Expr) : RunM σ τ (List Expr) :=
  es.mapM (r.expr config)

/-- Replace the nodes of the expressions that a binding list binds; the variables stay. -/
def bindings (config : Config) (r : Replacers σ) (b : Bindings Expr) : RunM σ τ (Bindings Expr) :=
  b.entries.foldlM (fun done (v, e) => do
    match done.add v (← r.expr config e) with
    | .ok done => pure done
    | .error cause => throw (.duplicate cause)) Bindings.empty

/-- Replace the nodes of a root; the result is of the same kind. -/
def replace (config : Config) (r : Replacers σ) : Root → RunM σ τ Root
  | .op o => return .op (← r.op config o)
  | .expr e => return .expr (← r.expr config e)
  | .exprs es => return .exprs (← r.exprs config es)
  | .bindings b => return .bindings (← r.bindings config b)

end Replacers

end QueryPlan
