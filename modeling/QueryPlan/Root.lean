import QueryPlan.Tree.Equality
import QueryPlan.Tree.Text

/-!
# Roots

What a run is started on: one tree of either sort, a list of expressions, or a binding list. A list
is gone through element by element, each a tree of its own.
-/

namespace QueryPlan

/-- What a run is started on. -/
inductive Root where
  | op (op : Op)
  | expr (expr : Expr)
  | exprs (exprs : List Expr)
  | bindings (bindings : Bindings Expr)

namespace Root

/-- The trees of a root, in order; the variables of a binding list are no trees. -/
def trees : Root → List Node
  | op o => [.op o]
  | expr e => [.expr e]
  | exprs es => es.map .expr
  | bindings b => b.values.map .expr

/-- The printed form of a root. -/
def pieces : Root → List Piece
  | op o => o.pieces
  | expr e => e.pieces
  | exprs es => Piece.exprList es
  | bindings b => Piece.bindingList b

/-- The text of a root. -/
def text (r : Root) : String := Piece.render r.pieces

/-- Two roots are the same: of one kind, and the same trees under the same variables. -/
def same : Root → Root → Bool
  | op o, op p => o.same p
  | expr e, expr f => e.same f
  | exprs es, exprs fs => Expr.sameList es fs
  | bindings b, bindings c => b.same c
  | _, _ => false

/-- What a log record calls a root. -/
def description : Root → String
  | op o => "operator tree rooted at " ++ o.name
  | expr e => "expression tree rooted at " ++ e.name
  | exprs es => "list of " ++ toString es.length ++ " expressions"
  | bindings b => toString b.size ++ " variable bindings"

end Root

end QueryPlan
