import QueryPlan.Schedule
import QueryPlan.Session

/-!
# Walks

A walk enters every node of a tree and calls the visitor of its sort after everything below it.
Around each composite operator the hooks fire: `before` on entering, `after` once the operator
itself was visited. Nodes that are too deep or defective stop the walk when they are entered, before
any callback.

`Visitors.walk` goes through each tree of a root by itself, and its counters go on from where they
stood.
-/

namespace QueryPlan

/-- What the walks of one walker have counted. -/
structure Counters where
  /-- The operators handed to their visitor. -/
  ops : Nat := 0
  /-- The expressions handed to their visitor. -/
  exprs : Nat := 0
  /-- The greatest depth of an entered node. -/
  maxDepth : Nat := 0
deriving DecidableEq

namespace Counters

/-- A node was entered at a depth. -/
def reached (s : Counters) (depth : Nat) : Counters := { s with maxDepth := max s.maxDepth depth }

/-- One more operator was handed to its visitor. -/
def countOp (s : Counters) : Counters := { s with ops := s.ops + 1 }

/-- One more expression was handed to its visitor. -/
def countExpr (s : Counters) : Counters := { s with exprs := s.exprs + 1 }

end Counters

/-- The callbacks of a walk; each may be missing. -/
structure Visitors (σ : Type) extends Hooks σ where
  /-- Called on every operator. -/
  onOp : Option (Op → CallerM σ Unit) := none
  /-- Called on every expression. -/
  onExpr : Option (Expr → CallerM σ Unit) := none

namespace Visitors

variable {σ : Type}

/-- One step of a walk. -/
def perform (config : Config) (v : Visitors σ) : Step → RunM σ Counters Unit
  | .enter n depth => do
    RunM.checkDepth config depth
    RunM.modifyOwn (·.reached depth)
    RunM.reach .walking v.toHooks n depth
  | .leave (.op o) => do
    RunM.modifyOwn (·.countOp)
    RunM.notify v.onOp o
    RunM.close v.toHooks o
  | .leave (.expr e) => do
    RunM.modifyOwn (·.countExpr)
    RunM.notify v.onExpr e

/-- Walk one tree. -/
def walkTree (config : Config) (v : Visitors σ) (n : Node) : RunM σ Counters Unit :=
  drain (v.perform config) [.enter n 1]

/-- Walk the trees of a root one after the other. -/
def walk (config : Config) (v : Visitors σ) (r : Root) : RunM σ Counters Unit :=
  r.trees.forM (v.walkTree config)

end Visitors

end QueryPlan
