import QueryPlan.Tree.Basic

/-!
# Equality of plans

A node is its frame, what it is apart from its parts, together with its parts. Two nodes are the
same when their frames agree and their parts are the same one by one. Literals agree as values do,
so a plan with a NaN anywhere is not the same as itself, and the sign of a zero does not count.
Binding lists agree as sequences.
-/

namespace QueryPlan

/-- A node without its parts: its kind and the attributes that no part carries. -/
inductive Frame where
  | scan (table : String) (asName : Option String)
  | empty
  | filter
  | project (vars : List Var)
  | distinct
  | slice (offset limit : Option UInt64)
  | order (directions : List Direction)
  | extend (vars : List Var)
  | group (keys aggregates : List Var)
  | join (method : JoinMethod)
  | leftJoin
  | union
  | minus
  | sequence
  | disjunction
  | const (value : Value)
  | var (var : Var)
  | function (func : Func)
  | aggregate (func : AggregateFunc) (distinct : Bool)
  | existence (negated : Bool)
deriving DecidableEq

/-- Frames agree when they are equal, except that literals agree as values do. -/
def Frame.same : Frame → Frame → Bool
  | const v, const w => v.same w
  | f, g => f == g

/-- The frame of an operator. -/
def Op.frame : Op → Frame
  | scan table other => .scan table other
  | empty => .empty
  | filter _ _ => .filter
  | project vars _ => .project vars
  | distinct _ => .distinct
  | slice offset limit _ => .slice offset limit
  | order keys _ => .order (keys.map (·.direction))
  | extend b _ => .extend b.vars
  | group keys aggregates _ => .group keys.vars aggregates.vars
  | join _ _ method => .join method
  | leftJoin .. => .leftJoin
  | union .. => .union
  | minus .. => .minus
  | sequence _ => .sequence
  | disjunction _ => .disjunction

/-- The frame of an expression. -/
def Expr.frame : Expr → Frame
  | const v => .const v
  | var v => .var v
  | function f _ => .function f
  | aggregate f distinct _ => .aggregate f distinct
  | existence negated _ => .existence negated

namespace Node

/-- The frame of a node. -/
def frame : Node → Frame
  | op o => o.frame
  | expr e => e.frame

/-- Two nodes are the same: their frames agree, and they have as many parts, the same one by one. -/
def same (m n : Node) : Bool :=
  m.frame.same n.frame && m.parts.length == n.parts.length &&
    (m.parts.attach.zip n.parts).all fun (⟨p, _⟩, q) => p.same q
termination_by sizeOf m
decreasing_by exact sizeOf_lt_of_mem_parts ‹_›

/-- Lists of nodes are the same: equally long, and the same one by one. -/
def sameAll (ms ns : List Node) : Bool := ms.isEqv ns same

/-- Two nodes are the same if their frames agree and their parts are the same one by one. -/
theorem same_eq (m n : Node) : m.same n = (m.frame.same n.frame && sameAll m.parts n.parts) := by
  have zipped (ms ns : List Node) (f : Node → Node → Bool) :
      (ms.length == ns.length && (ms.attach.zip ns).all fun x => f x.1.1 x.2) = ms.isEqv ns f := by
    have e : (ms.attach.zip ns).all (fun x => f x.1.1 x.2) =
        (ms.zip ns).all fun x => f x.1 x.2 := by
      conv => rhs; rw [← List.attach_map_subtype_val ms]
      rw [List.zip_map_left, List.all_map]
      rfl
    rw [e]
    clear e
    induction ms generalizing ns with
    | nil => cases ns <;> simp [List.isEqv]
    | cons m ms ih =>
      cases ns with
      | nil => simp [List.isEqv]
      | cons n ns =>
        have h : (ms.length + 1 == ns.length + 1) = (ms.length == ns.length) := by simp
        simp only [List.length_cons, List.zip_cons_cons, List.all_cons, List.isEqv_cons_cons, ← ih,
          h]
        exact Bool.and_left_comm ..
  rw [same, Bool.and_assoc, sameAll]
  exact congrArg _ (zipped m.parts n.parts same)

end Node

/-- Two operators are the same. -/
def Op.same (o p : Op) : Bool := (Node.op o).same (.op p)

/-- Two expressions are the same. -/
def Expr.same (e f : Expr) : Bool := (Node.expr e).same (.expr f)

/-- Two lists of expressions are the same. -/
def Expr.sameList (es fs : List Expr) : Bool := es.isEqv fs Expr.same

/-- Two binding lists are the same: the same variables in the same order, bound to the same. -/
def Bindings.same (b c : Bindings Expr) : Bool :=
  b.vars == c.vars && Expr.sameList b.values c.values

end QueryPlan
