import QueryPlan.Replace
import QueryPlan.Walk

/-!
# Entry points

One call for a whole run: the root may be absent, and then nothing is done and nothing logged;
otherwise a record says what is started on. Runs from here have the default configuration and
counters of their own.
-/

namespace QueryPlan

variable {σ : Type}

/-- Walk a root if there is one. -/
def Visitors.start (v : Visitors σ) : Option Root → RunM σ Unit Unit
  | none => pure ()
  | some root => do
    RunM.emit (.begun .walking root)
    RunM.within {} (v.walk {} root)

/-- Replace the nodes of a root if there is one. -/
def Replacers.start (r : Replacers σ) : Option Root → RunM σ Unit (Option Root)
  | none => pure none
  | some root => do
    RunM.emit (.begun .replacing root)
    return some (← r.replace {} root)

/-- Visit every operator below an operator, also those inside expressions; the visitor is required.
-/
def visitOps (onOp : Option (Op → CallerM σ Unit)) (root : Option Op) : RunM σ Unit Unit :=
  match onOp with
  | none => throw (.invalidArgument "an operator visitor is required")
  | some _ => Visitors.start { onOp } (root.map .op)

/-- Visit every expression below an expression, also those inside operators; the visitor is
required. -/
def visitExprs (onExpr : Option (Expr → CallerM σ Unit)) (root : Option Expr) : RunM σ Unit Unit :=
  match onExpr with
  | none => throw (.invalidArgument "an expression visitor is required")
  | some _ => Visitors.start { onExpr } (root.map .expr)

end QueryPlan
