import QueryPlan.Bindings
import QueryPlan.Func

/-!
# Plan trees

A query plan is a tree of two sorts: operators (`Op`), which produce rows, and expressions (`Expr`),
which compute a scalar from a row. Operators hold operators and own expressions; an existence test
holds an operator inside an expression again. `Node` is a tree of either sort.

`Node.parts` lists what stands directly below a node, in visiting order. Every definition that goes
through a whole tree is a recursion along `parts`, which `Node.sizeOf_lt_of_mem_parts` justifies.
`Node.size` counts the nodes of a tree.
-/

namespace QueryPlan

/-- The way a join is to be carried out; `auto` leaves it open. -/
inductive JoinMethod where
  | auto
  | nestedLoop
  | hash
deriving DecidableEq, Inhabited

/-- The direction of a sort key. -/
inductive Direction where
  | ascending
  | descending
deriving DecidableEq, Inhabited

/-- One key to sort by, with its direction. -/
structure SortKey (α : Type) where
  direction : Direction
  key : α

mutual

/-- The operators of a plan. -/
inductive Op where
  /-- The rows of a table, under another name if one is given. -/
  | scan (table : String) (asName : Option String)
  /-- A single row without columns. -/
  | empty
  /-- The rows of the input that satisfy every condition. -/
  | filter (conditions : List Expr) (input : Op)
  /-- The input cut down to some variables. -/
  | project (vars : List Var) (input : Op)
  /-- The input without repeated rows. -/
  | distinct (input : Op)
  /-- A window of the input; a missing bound leaves that side open. -/
  | slice (offset limit : Option UInt64) (input : Op)
  /-- The input sorted by keys, the first key before the second. -/
  | order (keys : List (SortKey Expr)) (input : Op)
  /-- The input with more variables, each bound to the value of an expression. -/
  | extend (bindings : Bindings Expr) (input : Op)
  /-- The input grouped by keys, with one row of aggregates for each group. -/
  | group (keys aggregates : Bindings Expr) (input : Op)
  /-- The rows of two inputs that agree. -/
  | join (left right : Op) (method : JoinMethod)
  /-- The join, with every row of the left input kept; the conditions see both sides. -/
  | leftJoin (left right : Op) (conditions : List Expr)
  /-- The rows of both inputs. -/
  | union (left right : Op)
  /-- The rows of the left input that agree with none of the right one. -/
  | minus (left right : Op)
  /-- Operators in turn, each fed into the next. -/
  | sequence (ops : List Op)
  /-- The rows of any number of operators. -/
  | disjunction (ops : List Op)

/-- The scalar expressions of a plan. -/
inductive Expr where
  /-- A literal. -/
  | const (value : Value)
  /-- The value of a variable. -/
  | var (var : Var)
  /-- A function applied to arguments. -/
  | function (func : Func) (args : List Expr)
  /-- An aggregate over its argument, or over whole rows if there is none. -/
  | aggregate (func : AggregateFunc) (distinct : Bool) (arg : Option Expr)
  /-- Whether an operator yields a row, or with `negated` whether it yields none. -/
  | existence (negated : Bool) (op : Op)

end

/-- The default operator is the one without rows. -/
instance : Inhabited Op := ⟨.empty⟩

/-- The default expression is the null literal. -/
instance : Inhabited Expr := ⟨.const .null⟩

/-- A tree of either sort, known by the node at its top. -/
inductive Node where
  | op (op : Op)
  | expr (expr : Expr)

/-- The default node is the default operator. -/
instance : Inhabited Node := ⟨.op .empty⟩

/-- The sum of a list of numbers. -/
def total (ns : List Nat) : Nat := ns.foldr (· + ·) 0

/-- Nothing sums up to zero. -/
theorem total_nil : total [] = 0 := rfl

/-- The first number is added to the sum of the others. -/
theorem total_cons (n : Nat) (ns : List Nat) : total (n :: ns) = n + total ns := rfl

/-- The sum over two lists is the sum of their sums. -/
theorem total_append (ms ns : List Nat) : total (ms ++ ns) = total ms + total ns := by
  induction ms with
  | nil => simp [total_nil]
  | cons m ms ih => rw [List.cons_append, total_cons, total_cons, ih, Nat.add_assoc]

/-- How many operators an operator holds. -/
inductive Shape where
  | leaf
  | unary
  | binary
  | nary
deriving DecidableEq

namespace Op

/-- The name of the kind of operator. -/
def name : Op → String
  | scan .. => "scan"
  | empty => "empty"
  | filter .. => "filter"
  | project .. => "project"
  | distinct .. => "distinct"
  | slice .. => "slice"
  | order .. => "order"
  | extend .. => "extend"
  | group .. => "group"
  | join .. => "join"
  | leftJoin .. => "leftjoin"
  | union .. => "union"
  | minus .. => "minus"
  | sequence .. => "sequence"
  | disjunction .. => "disjunction"

/-- The shape of an operator, the same for every operator of its kind. -/
def shape : Op → Shape
  | scan .. | empty => .leaf
  | filter .. | project .. | distinct .. | slice .. | order .. | extend .. | group .. => .unary
  | join .. | leftJoin .. | union .. | minus .. => .binary
  | sequence .. | disjunction .. => .nary

/-- Every operator but a scan and the empty operator opens a scope. -/
def isComposite (o : Op) : Bool := o.shape != .leaf

/-- The operators held, in the order in which they are held. -/
def children : Op → List Op
  | scan .. | empty => []
  | filter _ input | project _ input | distinct input | slice _ _ input | order _ input
  | extend _ input | group _ _ input => [input]
  | join left right _ | leftJoin left right _ | union left right | minus left right => [left, right]
  | sequence ops | disjunction ops => ops

/-- The expressions owned, in visiting order. -/
def exprs : Op → List Expr
  | filter conditions _ | leftJoin _ _ conditions => conditions
  | order keys _ => keys.map (·.key)
  | extend bindings _ => bindings.values
  | group keys aggregates _ => keys.values ++ aggregates.values
  | _ => []

/-- What stands below an operator, in visiting order: expressions before the input they refer to,
but the conditions of a left join after both of its inputs. -/
def parts : Op → List Node
  | scan .. | empty => []
  | filter conditions input => conditions.map .expr ++ [.op input]
  | order keys input => keys.map (fun k => .expr k.key) ++ [.op input]
  | extend bindings input => bindings.values.map .expr ++ [.op input]
  | group keys aggregates input =>
    keys.values.map .expr ++ aggregates.values.map .expr ++ [.op input]
  | project _ input | distinct input | slice _ _ input => [.op input]
  | join left right _ | union left right | minus left right => [.op left, .op right]
  | leftJoin left right conditions => [.op left, .op right] ++ conditions.map .expr
  | sequence ops | disjunction ops => ops.map .op

end Op

namespace Expr

/-- The name of the kind of expression. -/
def name : Expr → String
  | const .. => "constant"
  | var .. => "var"
  | function .. => "function"
  | aggregate .. => "aggregate"
  | existence .. => "exists"

/-- Literals and variables have nothing below them. -/
def isLeaf : Expr → Bool
  | const _ | var _ => true
  | _ => false

/-- The variable, of an expression that is one. -/
def asVar : Expr → Option Var
  | var v => some v
  | _ => none

/-- The expression is an aggregate. -/
def isAggregate : Expr → Bool
  | aggregate .. => true
  | _ => false

/-- The arguments of a function, or the argument of an aggregate. -/
def args : Expr → List Expr
  | function _ args => args
  | aggregate _ _ arg => arg.toList
  | _ => []

/-- What stands below an expression, in visiting order. -/
def parts : Expr → List Node
  | const _ | var _ => []
  | function _ args => args.map .expr
  | aggregate _ _ (some arg) => [.expr arg]
  | aggregate _ _ none => []
  | existence _ op => [.op op]

end Expr

namespace Node

/-- The name of the kind of node. -/
def name : Node → String
  | op o => o.name
  | expr e => e.name

/-- The word for the sort of a node. -/
def sort : Node → String
  | op _ => "operator"
  | expr _ => "expression"

/-- A composite operator. -/
def isComposite : Node → Bool
  | op o => o.isComposite
  | expr _ => false

/-- The operator, of a node that is one. -/
def op? : Node → Option Op
  | op o => some o
  | expr _ => none

/-- The expression, of a node that is one. -/
def expr? : Node → Option Expr
  | op _ => none
  | expr e => some e

/-- What stands directly below a node, in visiting order. -/
def parts : Node → List Node
  | op o => o.parts
  | expr e => e.parts

/-- The size that Lean gives to a node made of a member of a list is at most that of the list. -/
theorem sizeOf_le_of_mem_map_expr {p : Node} {es : List Expr} (h : p ∈ es.map expr) :
    sizeOf p ≤ sizeOf es := by
  obtain ⟨e, he, rfl⟩ := List.mem_map.1 h
  have := List.sizeOf_lt_of_mem he
  simp only [expr.sizeOf_spec]
  omega

/-- A node made from a listed operator is no bigger than the list. -/
theorem sizeOf_le_of_mem_map_op {p : Node} {os : List Op} (h : p ∈ os.map op) :
    sizeOf p ≤ sizeOf os := by
  obtain ⟨o, ho, rfl⟩ := List.mem_map.1 h
  have := List.sizeOf_lt_of_mem ho
  simp only [op.sizeOf_spec]
  omega

/-- The key of a listed sort key is no bigger than the list. -/
theorem sizeOf_le_of_mem_map_key {p : Node} {keys : List (SortKey Expr)}
    (h : p ∈ keys.map (fun k => expr k.key)) : sizeOf p ≤ sizeOf keys := by
  obtain ⟨⟨d, e⟩, hk, rfl⟩ := List.mem_map.1 h
  have := List.sizeOf_lt_of_mem hk
  simp only [expr.sizeOf_spec, SortKey.mk.sizeOf_spec] at this ⊢
  omega

/-- A value of a binding list is no bigger than the list. -/
theorem sizeOf_le_of_mem_map_values {p : Node} {b : Bindings Expr} (h : p ∈ b.values.map expr) :
    sizeOf p ≤ sizeOf b := by
  obtain ⟨e, he, rfl⟩ := List.mem_map.1 h
  have := Bindings.sizeOf_lt_of_mem_values he
  simp only [expr.sizeOf_spec]
  omega

/-- A part is smaller than the node it stands below. -/
theorem sizeOf_lt_of_mem_parts {p n : Node} (h : p ∈ n.parts) : sizeOf p < sizeOf n := by
  rcases n with o | e
  · cases o <;>
      simp only [parts, Op.parts, List.mem_append, List.mem_cons, List.not_mem_nil, or_false] at h
    case filter =>
      simp only [op.sizeOf_spec, Op.filter.sizeOf_spec]
      rcases h with h | rfl
      · have := sizeOf_le_of_mem_map_expr h
        omega
      · rw [op.sizeOf_spec]
        omega
    case order =>
      simp only [op.sizeOf_spec, Op.order.sizeOf_spec]
      rcases h with h | rfl
      · have := sizeOf_le_of_mem_map_key h
        omega
      · rw [op.sizeOf_spec]
        omega
    case extend =>
      simp only [op.sizeOf_spec, Op.extend.sizeOf_spec]
      rcases h with h | rfl
      · have := sizeOf_le_of_mem_map_values h
        omega
      · rw [op.sizeOf_spec]
        omega
    case group =>
      simp only [op.sizeOf_spec, Op.group.sizeOf_spec]
      rcases h with (h | h) | rfl
      · have := sizeOf_le_of_mem_map_values h
        omega
      · have := sizeOf_le_of_mem_map_values h
        omega
      · rw [op.sizeOf_spec]
        omega
    case leftJoin =>
      simp only [op.sizeOf_spec, Op.leftJoin.sizeOf_spec]
      rcases h with (rfl | rfl) | h
      · rw [op.sizeOf_spec]
        omega
      · rw [op.sizeOf_spec]
        omega
      · have := sizeOf_le_of_mem_map_expr h
        omega
    case sequence | disjunction =>
      have := sizeOf_le_of_mem_map_op h
      simp only [op.sizeOf_spec, Op.sequence.sizeOf_spec, Op.disjunction.sizeOf_spec]
      omega
    case project | distinct | slice =>
      subst h
      simp only [op.sizeOf_spec, Op.project.sizeOf_spec, Op.distinct.sizeOf_spec,
        Op.slice.sizeOf_spec]
      omega
    case join | union | minus =>
      simp only [op.sizeOf_spec, Op.join.sizeOf_spec, Op.union.sizeOf_spec, Op.minus.sizeOf_spec]
      rcases h with rfl | rfl <;> rw [op.sizeOf_spec] <;> omega
  · rcases e with v | v | ⟨f, args⟩ | ⟨f, d, _ | arg⟩ | ⟨n, o⟩ <;>
      simp only [parts, Expr.parts, List.mem_cons, List.not_mem_nil, or_false] at h
    · have := sizeOf_le_of_mem_map_expr h
      simp only [expr.sizeOf_spec, Expr.function.sizeOf_spec]
      omega
    · subst h
      simp only [expr.sizeOf_spec, Expr.aggregate.sizeOf_spec, Option.some.sizeOf_spec]
      omega
    · subst h
      simp only [op.sizeOf_spec, expr.sizeOf_spec, Expr.existence.sizeOf_spec]
      omega

/-- The number of nodes of a tree. -/
def size (n : Node) : Nat :=
  1 + total (n.parts.attach.map fun ⟨p, _⟩ => p.size)
termination_by sizeOf n
decreasing_by exact sizeOf_lt_of_mem_parts ‹_›

/-- A tree has its top node and the nodes of its parts. -/
theorem size_eq (n : Node) : n.size = 1 + total (n.parts.map size) := by
  rw [size, List.attach_map_val]

/-- A property holds of all nodes if each node inherits it from its parts. -/
theorem inductionOnParts {motive : Node → Prop} (n : Node)
    (step : ∀ n, (∀ p ∈ n.parts, motive p) → motive n) : motive n :=
  step n fun p _ => inductionOnParts p step
termination_by sizeOf n
decreasing_by exact sizeOf_lt_of_mem_parts ‹_›

end Node

namespace Op

/-- No operator is among nodes that are expressions. -/
theorem filterMap_op?_map_expr {α : Type} (f : α → Expr) (as : List α) :
    (as.map fun a => Node.expr (f a)).filterMap Node.op? = [] := by
  simp [Node.op?]

/-- Expressions taken as nodes are read back unchanged. -/
theorem filterMap_expr?_map_expr {α : Type} (f : α → Expr) (as : List α) :
    (as.map fun a => Node.expr (f a)).filterMap Node.expr? = as.map f := by
  simp [List.filterMap_map, Function.comp_def, Node.expr?]

/-- Operators taken as nodes are read back unchanged. -/
theorem filterMap_op?_map_op (os : List Op) : (os.map Node.op).filterMap Node.op? = os := by
  simp [List.filterMap_map, Function.comp_def, Node.op?]

/-- No expression is among nodes that are operators. -/
theorem filterMap_expr?_map_op (os : List Op) : (os.map Node.op).filterMap Node.expr? = [] := by
  simp [Node.expr?]

/-- The operators among the parts of an operator are its children. -/
theorem filterMap_op?_parts (o : Op) : o.parts.filterMap Node.op? = o.children := by
  have h (es : List Expr) : (es.map Node.expr).filterMap Node.op? = [] :=
    filterMap_op?_map_expr id es
  cases o <;>
    simp only [parts, children, List.filterMap_append, List.filterMap_cons, List.filterMap_nil, h,
      filterMap_op?_map_expr, filterMap_op?_map_op, Node.op?, List.nil_append, List.append_nil]

/-- The expressions among the parts of an operator are those that it owns. -/
theorem filterMap_expr?_parts (o : Op) : o.parts.filterMap Node.expr? = o.exprs := by
  have h (es : List Expr) : (es.map Node.expr).filterMap Node.expr? = es := by
    simpa using filterMap_expr?_map_expr id es
  cases o <;>
    simp only [parts, exprs, List.filterMap_append, List.filterMap_cons, List.filterMap_nil, h,
      filterMap_expr?_map_expr, filterMap_expr?_map_op, Node.expr?, List.nil_append,
      List.append_nil]

end Op

end QueryPlan
