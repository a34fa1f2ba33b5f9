/-!
# Functions and aggregates

The functions an expression can apply, each with its symbol and the number of arguments it accepts,
and the aggregate functions of a group.
-/

namespace QueryPlan

/-- How many arguments a function accepts. -/
inductive Arity where
  | exactly (count : Nat)
  | atLeast (count : Nat)
deriving DecidableEq

namespace Arity

/-- `count` arguments are accepted. -/
def accepts : Arity → Nat → Bool
  | exactly n, count => count == n
  | atLeast n, count => n ≤ count

/-- An arity as messages give it. -/
def text : Arity → String
  | exactly n => toString n
  | atLeast n => "at least " ++ toString n

end Arity

/-- The functions and operators of expressions; `call` is an extension function with its name. -/
inductive Func where
  | equals
  | notEquals
  | lessThan
  | greaterThan
  | lessEquals
  | greaterEquals
  | and
  | or
  | not
  | plus
  | minus
  | multiply
  | divide
  | negate
  | bound
  | ifThenElse
  | coalesce
  | call (name : String)
deriving DecidableEq, Inhabited

namespace Func

/-- Comparisons, connectives of two sides and arithmetic take two arguments; an extension function
takes any number. -/
def arity : Func → Arity
  | not | negate | bound => .exactly 1
  | ifThenElse => .exactly 3
  | coalesce => .atLeast 1
  | call _ => .atLeast 0
  | _ => .exactly 2

/-- The symbol a function prints as. -/
def symbol : Func → String
  | equals => "="
  | notEquals => "!="
  | lessThan => "<"
  | greaterThan => ">"
  | lessEquals => "<="
  | greaterEquals => ">="
  | and => "&&"
  | or => "||"
  | not => "!"
  | plus => "+"
  | minus => "-"
  | multiply => "*"
  | divide => "/"
  | negate => "neg"
  | bound => "bound"
  | ifThenElse => "if"
  | coalesce => "coalesce"
  | call name => name

end Func

/-- The aggregate functions. -/
inductive AggregateFunc where
  | count
  | sum
  | min
  | max
  | avg
  | sample
deriving DecidableEq, Inhabited

/-- The name an aggregate function prints as. -/
def AggregateFunc.name : AggregateFunc → String
  | count => "count"
  | sum => "sum"
  | min => "min"
  | max => "max"
  | avg => "avg"
  | sample => "sample"

end QueryPlan
