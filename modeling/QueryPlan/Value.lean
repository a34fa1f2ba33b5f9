import QueryPlan.Double.Shortest

/-!
# Variables and literal values

The leaves of expressions: a named variable, printed with a leading `?`, and the literals.
-/

namespace QueryPlan

/-- A query variable, known by its name. -/
structure Var where
  name : String
deriving DecidableEq, Inhabited

namespace Var

/-- A variable prints as a question mark and its name. -/
def text (v : Var) : String := "?" ++ v.name

/-- Variables are ordered by name, code point by code point. -/
def le (v w : Var) : Bool := !decide (w.name < v.name)

/-- The variables in the order of their names; equal ones keep their order. -/
def sort (vars : List Var) : List Var := vars.mergeSort le

end Var

/-- The literals an expression can hold. -/
inductive Value where
  | null
  | int (value : Int64)
  | double (value : Double)
  | string (value : String)
  | bool (value : Bool)
deriving DecidableEq, Inhabited

namespace Value

/-- A literal as plans print it; the characters of a string stand between double quotes as they are.
-/
def text : Value → String
  | null => "null"
  | int i => toString i.toInt
  | double x => x.text
  | string s => "\"" ++ s ++ "\""
  | bool true => "true"
  | bool false => "false"

/-- Equality of literals of one kind; doubles compare as numbers. -/
def same : Value → Value → Bool
  | double x, double y => x.same y
  | v, w => v == w

/-- The literal is a double that is no number. -/
def isNaN : Value → Bool
  | double x => x.isNaN
  | _ => false

end Value

end QueryPlan
