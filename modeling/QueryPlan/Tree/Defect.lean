import QueryPlan.Tree.Basic

/-!
# Defects of single nodes

A node is defective when a function has a number of arguments that its arity rejects, or when a
group binds something else than an aggregate among its aggregates. `Node.defect?` looks at one node
and not at what stands below it, except for the kinds of the aggregates.
-/

namespace QueryPlan

/-- Why a node is no proper node of a plan. -/
inductive Defect where
  /-- A function is applied to a number of arguments it does not accept. -/
  | wrongArity (func : Func) (count : Nat)
  /-- A group binds a variable among its aggregates to another expression. -/
  | notAggregate (var : Var) (expr : Expr)

/-- A group is defective at its first binding, in binding order, that is no aggregate. -/
def Op.defect? : Op → Option Defect
  | group _ aggregates _ =>
    (aggregates.entries.find? fun p => !p.2.isAggregate).map fun p => .notAggregate p.1 p.2
  | _ => none

/-- A function is defective when its arity rejects the number of its arguments. -/
def Expr.defect? : Expr → Option Defect
  | function f args =>
    if f.arity.accepts args.length then none else some (.wrongArity f args.length)
  | _ => none

/-- The defect of a node, if it has one. -/
def Node.defect? : Node → Option Defect
  | op o => o.defect?
  | expr e => e.defect?

end QueryPlan
