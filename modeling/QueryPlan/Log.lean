import QueryPlan.Root
import QueryPlan.Tree.Defect

/-!
# Log records

A run reports what it starts on, every node that it enters, and what makes it stop. Records are kept
as data; `LogRecord.line` is how one is written.
-/

namespace QueryPlan

/-- What a run does with the nodes it reaches. -/
inductive Activity where
  | walking
  | replacing
deriving DecidableEq

/-- The word a record begins with. -/
def Activity.text : Activity → String
  | walking => "Walking"
  | replacing => "Transforming"

/-- How much a record matters. -/
inductive Level where
  | trace
  | debug
  | warn
deriving DecidableEq

/-- The name of a level. -/
def Level.text : Level → String
  | trace => "TRACE"
  | debug => "DEBUG"
  | warn => "WARN"

/-- What a run reports. -/
inductive LogRecord where
  /-- The run starts on a root. -/
  | begun (activity : Activity) (root : Root)
  /-- The run enters a node at a depth; the root of a tree has depth one. -/
  | entered (activity : Activity) (node : Node) (depth : Nat)
  /-- A node stands deeper than the limit. -/
  | tooDeep (limit : Nat)
  /-- A node is defective. -/
  | defective (defect : Defect)

namespace LogRecord

/-- The level of a record. -/
def level : LogRecord → Level
  | begun .. => .debug
  | entered .. => .trace
  | tooDeep _ | defective _ => .warn

/-- The text of a record. -/
def text : LogRecord → String
  | begun activity root => activity.text ++ " " ++ root.description
  | entered activity node depth =>
    activity.text ++ " " ++ node.name ++ " " ++ node.sort ++ " at depth " ++ toString depth
  | tooDeep limit => "Walk depth limit of " ++ toString limit ++ " exceeded"
  | defective (.wrongArity f count) =>
    "Function " ++ f.symbol ++ " applied to " ++ toString count ++ " arguments, expected " ++
      f.arity.text
  | defective (.notAggregate v e) =>
    "Group binding " ++ v.text ++ " is a " ++ e.name ++ " expression, not an aggregate"

/-- A record as it is written: its level and its text. -/
def line (r : LogRecord) : String := r.level.text ++ " " ++ r.text

end LogRecord

end QueryPlan
