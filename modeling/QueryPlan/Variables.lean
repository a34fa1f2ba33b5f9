import QueryPlan.Walk

/-!
# The variables of a plan

The variables that the expressions of a plan refer to, in visiting order and with repetitions.
Variables that a plan only names, in a projection or a binding list, are not among them.
-/

namespace QueryPlan

/-- Notes the variable of each expression that is one. -/
def collectVars : Visitors (List Var) where
  onExpr := some fun e => modify (· ++ e.asVar.toList)

/-- The variables that the expressions of a plan refer to, or the error that stops the walk. -/
def Op.vars (config : Config) (plan : Op) : Except RunError (List Var) :=
  let (result, s) := (collectVars.walk config (.op plan)).exec [] {}
  result.map fun _ => s.caller

end QueryPlan
