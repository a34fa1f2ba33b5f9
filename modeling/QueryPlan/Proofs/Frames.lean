import QueryPlan.Proofs.RebuiltParts
import QueryPlan.Tree.Equality

/-!
# Frames and parts

A node is its frame together with its parts: `Frame.node` puts the two together again
(`Node.node_frame`), so nodes with one frame and the same parts are equal
(`Node.eq_of_frame_of_parts`). Rebuilding a node from results keeps its frame (`Node.frame_over`).

Equality of plans is equality of trees as long as there are no doubles in them
(`Node.same_iff_eq`).
-/

namespace QueryPlan

/-- The node with a frame over operators and expressions. -/
def Frame.node (f : Frame) (ops : List Op) (exprs : List Expr) : Node :=
  match f with
  | scan table asName => .op (.scan table asName)
  | empty => .op .empty
  | filter => .op (.filter exprs (ops.headD .empty))
  | project vars => .op (.project vars (ops.headD .empty))
  | distinct => .op (.distinct (ops.headD .empty))
  | slice offset limit => .op (.slice offset limit (ops.headD .empty))
  | order directions => .op (.order (directions.zipWith .mk exprs) (ops.headD .empty))
  | extend vars => .op (.extend ⟨vars.zip exprs⟩ (ops.headD .empty))
  | group keys aggregates =>
    .op (.group ⟨keys.zip (exprs.take keys.length)⟩ ⟨aggregates.zip (exprs.drop keys.length)⟩
      (ops.headD .empty))
  | join method => .op (.join (ops.headD .empty) (ops.tail.headD .empty) method)
  | leftJoin => .op (.leftJoin (ops.headD .empty) (ops.tail.headD .empty) exprs)
  | union => .op (.union (ops.headD .empty) (ops.tail.headD .empty))
  | minus => .op (.minus (ops.headD .empty) (ops.tail.headD .empty))
  | sequence => .op (.sequence ops)
  | disjunction => .op (.disjunction ops)
  | const value => .expr (.const value)
  | var v => .expr (.var v)
  | function func => .expr (.function func exprs)
  | aggregate func once => .expr (.aggregate func once exprs.head?)
  | existence negated => .expr (.existence negated (ops.headD .empty))

/-- An operator is put together again from its frame, its children and its expressions. -/
lemma Op.node_frame (o : Op) : o.frame.node o.children o.exprs = .op o := by
  cases o with
  | order keys input =>
    have hkeys : (keys.map (·.direction)).zipWith SortKey.mk (keys.map (·.key)) = keys := by
      rw [List.zipWith_map, List.zipWith_self]
      exact List.map_id keys
    exact congrArg (fun keys => Node.op (order keys input)) hkeys
  | extend b input => exact congrArg (fun b => Node.op (extend b input)) b.zip_vars_values
  | group keys aggregates input =>
    have hlength : keys.values.length = keys.vars.length := by
      simp [Bindings.values, Bindings.vars]
    show Node.op (group ⟨keys.vars.zip ((keys.values ++ aggregates.values).take keys.vars.length)⟩
      ⟨aggregates.vars.zip ((keys.values ++ aggregates.values).drop keys.vars.length)⟩ input) = _
    rw [List.take_left' hlength, List.drop_left' hlength, Bindings.zip_vars_values,
      Bindings.zip_vars_values]
  | _ => rfl

/-- An expression is put together again from its frame and its parts. -/
lemma Expr.node_frame (e : Expr) : e.frame.node (Node.expr e).ops e.args = .expr e := by
  rcases e with v | v | ⟨f, args⟩ | ⟨f, distinct, _ | arg⟩ | ⟨negated, op⟩
  all_goals rfl

namespace Node

variable {m n : Node}

/-- The operators directly below a node are those among its parts. -/
lemma mem_ops {o : Op} : o ∈ n.ops ↔ op o ∈ n.parts := by
  rw [ops, List.mem_filterMap]
  constructor
  · rintro ⟨p | e, hp, ⟨⟩⟩
    exact hp
  · intro h
    exact ⟨_, h, rfl⟩

/-- The expressions directly below a node are those among its parts. -/
lemma mem_exprs {e : Expr} : e ∈ n.exprs ↔ expr e ∈ n.parts := by
  rw [exprs, List.mem_filterMap]
  constructor
  · rintro ⟨o | p, hp, ⟨⟩⟩
    exact hp
  · intro h
    exact ⟨_, h, rfl⟩

/-- The operators directly below an operator are its children. -/
lemma ops_op (o : Op) : (op o).ops = o.children := o.filterMap_op?_parts

/-- The expressions directly below an operator are its own. -/
lemma exprs_op (o : Op) : (op o).exprs = o.exprs := o.filterMap_expr?_parts

/-- A node is what its frame makes of its parts. -/
theorem node_frame (n : Node) : n.frame.node n.ops n.exprs = n := by
  cases n with
  | op o =>
    rw [ops_op, exprs_op]
    exact o.node_frame
  | expr e =>
    rw [exprs_expr]
    exact e.node_frame

/-- Nodes with one frame and the same parts are equal. -/
lemma eq_of_frame_of_parts (hframe : m.frame = n.frame) (hparts : m.parts = n.parts) : m = n := by
  rw [← m.node_frame, ← n.node_frame, hframe, ops, ops, exprs, exprs, hparts]

/-! ### Rebuilt nodes -/

/-- A rebuilt node has the frame of the old one. -/
lemma frame_over {results : List Node} (h : Results n.parts results) :
    (n.over results).frame = n.frame := by
  cases n with
  | op o =>
    have hexprs := h.length_exprs
    rw [parts, o.filterMap_expr?_parts] at hexprs
    cases o with
    | order keys input =>
      rw [Op.exprs, List.length_map] at hexprs
      have hkeys (es : List Expr) (hes : es.length = keys.length) :
          (keys.zipWith (fun k e => { k with key := e }) es).map (·.direction) =
            keys.map (·.direction) := by
        rw [List.map_zipWith, ← List.map_uncurry_zip_eq_zipWith]
        show (keys.zip es).map ((·.direction) ∘ Prod.fst) = _
        rw [← List.map_map, List.map_fst_zip (Nat.le_of_eq hes.symm)]
      exact congrArg Frame.order (hkeys _ hexprs)
    | extend b input =>
      exact congrArg Frame.extend (Bindings.vars_zip (hexprs.trans (List.length_map _)))
    | group keys aggregates input =>
      obtain ⟨hkeys, haggregates⟩ := Op.length_dealt hexprs
      exact congrArg₂ Frame.group (Bindings.vars_zip hkeys) (Bindings.vars_zip haggregates)
    | _ => rfl
  | expr e => rcases e with v | v | ⟨f, args⟩ | ⟨f, distinct, _ | arg⟩ | ⟨negated, op⟩ <;> rfl

/-! ### Equality of plans -/

/-- Lists agree by a test that amounts to equality on the first one if they are equal. -/
lemma isEqv_iff_eq {α : Type} {as bs : List α} {same : α → α → Bool}
    (h : ∀ a ∈ as, ∀ b, same a b = true ↔ a = b) : as.isEqv bs same = true ↔ as = bs := by
  induction as generalizing bs with
  | nil => cases bs <;> simp [List.isEqv]
  | cons a as ih =>
    cases bs with
    | nil => simp [List.isEqv]
    | cons b bs => simp [List.isEqv, h a (.head _) b, ih fun a ha => h a (.tail _ ha)]

/-- No literal of a tree is a double. -/
def NoDoubles (n : Node) : Prop := ∀ x, ¬ (expr (.const (.double x))).Within n

/-- In a part of a tree without doubles there are none either. -/
lemma NoDoubles.part {p : Node} (h : n.NoDoubles) (hp : p ∈ n.parts) : p.NoDoubles :=
  fun x hx => h x (.part hp hx)

/-- A literal that is no double is the same only as itself. -/
lemma NoDoubles.value_same_iff {v w : Value} (h : (expr (.const v)).NoDoubles) :
    v.same w = true ↔ v = w := by
  cases v with
  | double x => exact absurd .here (h x)
  | null | int | string | bool => cases w <;> exact beq_iff_eq

/-- Without doubles frames are the same only if they are equal. -/
lemma NoDoubles.frame_same_iff (h : n.NoDoubles) {f : Frame} :
    n.frame.same f = true ↔ n.frame = f := by
  rcases n with o | v | v | ⟨g, args⟩ | ⟨g, distinct, arg⟩ | ⟨negated, op⟩
  case op => cases o <;> exact beq_iff_eq
  case expr.const =>
    cases f with
    | const w =>
      show v.same w = true ↔ Frame.const v = Frame.const w
      rw [h.value_same_iff, Frame.const.injEq]
    | _ => exact beq_iff_eq
  all_goals exact beq_iff_eq

/-- Without doubles in it a tree is the same as another one exactly if the two are equal. -/
theorem same_iff_eq (h : m.NoDoubles) : m.same n = true ↔ m = n := by
  induction m using inductionOnParts generalizing n with
  | step m ih =>
    rw [same_eq, Bool.and_eq_true, h.frame_same_iff, sameAll,
      isEqv_iff_eq fun p hp q => ih p hp (h.part hp)]
    constructor
    · rintro ⟨hframe, hparts⟩
      exact eq_of_frame_of_parts hframe hparts
    · intro hmn
      exact ⟨congrArg frame hmn, congrArg parts hmn⟩

end Node

/-- Without doubles in it an expression is the same as another one exactly if the two are equal. -/
lemma Expr.same_iff_eq {e f : Expr} (h : (Node.expr e).NoDoubles) : e.same f = true ↔ e = f :=
  (Node.same_iff_eq h).trans (Node.expr.injEq e f).to_iff

/-- Without doubles in them binding lists are the same if they are the same pairs. -/
lemma Bindings.same_iff_entries_eq {b c : Bindings Expr}
    (h : ∀ e ∈ b.values, (Node.expr e).NoDoubles) :
    b.same c = true ↔ b.entries = c.entries := by
  rw [same, Bool.and_eq_true, beq_iff_eq, Expr.sameList,
    Node.isEqv_iff_eq fun e he f => Expr.same_iff_eq (h e he)]
  constructor
  · rintro ⟨hvars, hvalues⟩
    rw [← b.zip_vars_values, ← c.zip_vars_values, hvars, hvalues]
  · intro hentries
    exact ⟨congrArg (List.map Prod.fst) hentries, congrArg (List.map Prod.snd) hentries⟩

end QueryPlan
