import QueryPlan.Tree.Defect
import QueryPlan.Tree.Text

/-!
# Errors of a run

The causes for which a run stops before its end. Callbacks may return any of them, and `raised` is
for a failure of their own, whose message stands as it is.
-/

namespace QueryPlan

/-- Why a run stopped. -/
inductive RunError where
  /-- Something the caller had to supply is missing. -/
  | invalidArgument (message : String)
  /-- A node of some kind is no proper node, for the reason in `detail`. -/
  | malformed (node detail : String)
  /-- A node stands deeper than the limit. -/
  | tooDeep (limit : Nat)
  /-- A variable would be bound twice. -/
  | duplicate (cause : DuplicateVariable)
  /-- A callback failed for a reason of its own. -/
  | raised (message : String)
deriving DecidableEq

namespace RunError

/-- The message of an error. -/
def message : RunError → String
  | invalidArgument m => "Invalid argument: " ++ m
  | malformed node detail => "Malformed " ++ node ++ " node: " ++ detail
  | tooDeep limit => "Maximum walk depth of " ++ toString limit ++ " exceeded"
  | duplicate cause => "Algebra error: " ++ cause.message
  | raised m => m

end RunError

/-- A defective node makes its run stop with a malformed node of its kind. -/
def Defect.error : Defect → RunError
  | wrongArity f count =>
    .malformed "function"
      (f.symbol ++ " expects " ++ f.arity.text ++ " arguments, got " ++ toString count)
  | notAggregate v e =>
    .malformed "group" ("binding " ++ v.text ++ " is not an aggregate: " ++ e.text)

end QueryPlan
