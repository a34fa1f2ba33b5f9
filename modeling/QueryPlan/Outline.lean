import QueryPlan.Walk

/-!
# Outlines

The operators of a plan as nested scopes, one line for each opening and closing of a composite
operator and one for each leaf. The lines are written while the plan is walked, so a walk that stops
leaves the lines up to there.
-/

namespace QueryPlan

/-- An outline in the making. -/
structure Outline where
  /-- The number of scopes that are open. -/
  depth : Nat := 0
  /-- The lines so far. -/
  lines : List String := []

namespace Outline

/-- One more line, set in by two blanks for each open scope. -/
def line (text : String) (o : Outline) : Outline :=
  { o with lines := o.lines ++ [String.ofList (List.replicate (2 * o.depth) ' ') ++ text] }

/-- Open the scope of an operator. -/
def opened (op : Op) (o : Outline) : Outline :=
  let o := o.line (op.name ++ " \x7b")
  { o with depth := o.depth + 1 }

/-- Close the scope opened last; without an open scope there is none to close. -/
def closed? (o : Outline) : Option Outline :=
  match o.depth with
  | depth + 1 => some ({ o with depth }.line "\x7d")
  | 0 => none

/-- Writes an outline. -/
def visitors : Visitors Outline where
  before := some fun op => modify (opened op)
  onOp := some fun op => if op.isComposite then pure () else modify (line op.text)
  after := some fun _ => do
    match (← get).closed? with
    | some o => set o
    | none => throw (.raised "no scope is open")

end Outline

/-- The outline of a plan, and the error that stopped it if one did. -/
def Op.outline (config : Config) (plan : Op) : Except RunError Unit × Outline :=
  let (result, s) := (Outline.visitors.walk config (.op plan)).exec {} {}
  (result, s.caller)

end QueryPlan
