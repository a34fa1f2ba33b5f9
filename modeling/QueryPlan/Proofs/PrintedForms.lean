import Mathlib.Tactic.Common
import QueryPlan.Proofs.Forms
import QueryPlan.Proofs.Frames
import QueryPlan.Proofs.Rebuild
import QueryPlan.Root
import QueryPlan.Tree.Equality

/-!
# Plans as forms

What a plan prints as is a form: `Frame.form` puts the form of a node together from its frame and
the forms of its parts, and `Node.text_form` says that its text is the text of the node. The texts
of lists follow (`Root.text_exprs`, `Root.text_bindings`).
-/

namespace QueryPlan

/-! ### The text of pieces -/

namespace Piece

/-- No pieces are no text. -/
@[simp] lemma render_nil : render [] = "" := rfl

/-- A piece of fixed text is printed as it is. -/
@[simp] lemma render_text (s : String) (ps : List Piece) : render (text s :: ps) = s ++ render ps :=
  String.join_cons

/-- A part is printed as the node that it is. -/
lemma render_part (n : Node) (ps : List Piece) : render (part n :: ps) = n.text ++ render ps :=
  String.join_cons

/-- An operator among the pieces is printed as it is by itself. -/
@[simp] lemma render_part_op (o : Op) (ps : List Piece) :
    render (part (.op o) :: ps) = o.text ++ render ps :=
  render_part _ ps

/-- An expression among the pieces is printed as it is by itself. -/
@[simp] lemma render_part_expr (e : Expr) (ps : List Piece) :
    render (part (.expr e) :: ps) = e.text ++ render ps :=
  render_part _ ps

/-- Pieces are printed one after the other. -/
@[simp] lemma render_append (ps qs : List Piece) : render (ps ++ qs) = render ps ++ render qs := by
  rw [render, List.map_append, String.join_append]
  rfl

/-- Items in brackets are printed with a blank between any two. -/
@[simp] lemma render_bracketed (items : List (List Piece)) :
    render (bracketed items) = "(" ++ " ".intercalate (items.map render) ++ ")" := by
  have hitems : render (items.intersperse [text " "]).flatten =
      " ".intercalate (items.map render) := by
    induction items with
    | nil => rfl
    | cons a as ih =>
      cases as with
      | nil => simp
      | cons b bs =>
        simp only [List.map_cons] at ih ⊢
        simp [ih, String.append_assoc]
  simp [bracketed, hitems, String.append_assoc]

/-- The last operator of a form is printed after a blank and before the closing bracket. -/
@[simp] lemma render_last (o : Op) : render (last o) = " " ++ o.text ++ ")" := by
  simp [last, Op.text, String.append_assoc]

end Piece

/-! ### The form of a frame -/

/-- The word for a direction in a sort key. -/
def Direction.word : Direction → String
  | ascending => "asc"
  | descending => "desc"

/-- The first word of a join. -/
def JoinMethod.word : JoinMethod → String
  | auto => "join"
  | nestedLoop => "join[NestedLoop]"
  | hash => "join[Hash]"

namespace Form

/-- A word with the form that it is for. -/
def labelled (label : String) (f : Form) : Form := list [atom label, f]

/-- Variables with the forms of what they are bound to. -/
def bindings (vars : List Var) (values : List Form) : Form :=
  list (vars.zipWith (fun v f => labelled v.text f) values)

end Form

open Form in
/-- The form of a node with a frame, from the forms of the operators and the expressions below. -/
def Frame.form (frame : Frame) (ops exprs : List Form) : Form :=
  match frame with
  | scan table none => list [atom "scan", atom table]
  | scan table (some other) => list [atom "scan", atom table, atom "as", atom other]
  | empty => list [atom "empty"]
  | filter => list (atom "filter" :: list exprs :: ops)
  | project vars => list (atom "project" :: list (vars.map fun v => atom v.text) :: ops)
  | distinct => list (atom "distinct" :: ops)
  | slice offset limit =>
    list (atom "slice" :: atom (boundText offset) :: atom (boundText limit) :: ops)
  | order directions =>
    list (atom "order" ::
      list (directions.zipWith (fun d f => labelled d.word f) exprs) :: ops)
  | extend vars => list (atom "extend" :: bindings vars exprs :: ops)
  | group keys aggregates =>
    list (atom "group" :: bindings keys (exprs.take keys.length) ::
      bindings aggregates (exprs.drop keys.length) :: ops)
  | join method => list (atom method.word :: ops)
  | leftJoin => list (atom "leftjoin" :: (ops ++ if exprs.isEmpty then [] else [list exprs]))
  | union => list (atom "union" :: ops)
  | minus => list (atom "minus" :: ops)
  | sequence => list (atom "sequence" :: ops)
  | disjunction => list (atom "disjunction" :: ops)
  | const value => atom value.text
  | var v => atom v.text
  | function func => list (atom func.symbol :: exprs)
  | aggregate func once =>
    list (atom func.name :: ((if once then [atom "distinct"] else []) ++
      if exprs.isEmpty then [atom "*"] else exprs))
  | existence negated => list (atom (if negated then "notexists" else "exists") :: ops)

namespace Node

/-- The form of a node. -/
def form (n : Node) : Form :=
  n.frame.form (n.ops.attach.map fun o => (op o.1).form)
    (n.exprs.attach.map fun e => (expr e.1).form)
termination_by sizeOf n
decreasing_by
  · exact sizeOf_lt_of_mem_parts (mem_ops.1 o.2)
  · exact sizeOf_lt_of_mem_parts (mem_exprs.1 e.2)

end Node

/-- The form of an operator. -/
def Op.form (o : Op) : Form := (Node.op o).form

/-- The form of an expression. -/
def Expr.form (e : Expr) : Form := (Node.expr e).form

namespace Node

/-- A node has the form of its frame over the forms of its parts. -/
lemma form_eq (n : Node) : n.form = n.frame.form (n.ops.map Op.form) (n.exprs.map Expr.form) := by
  rw [form]
  exact congrArg₂ n.frame.form (List.attach_map_val (f := Op.form))
    (List.attach_map_val (f := Expr.form))

/-- The form of an operator is made of its frame and of the forms of what it holds. -/
lemma form_op (o : Op) :
    (op o).form = o.frame.form (o.children.map Op.form) (o.exprs.map Expr.form) := by
  rw [form_eq, ops_op, exprs_op]
  rfl

/-- The form of an expression is made of its frame and of the forms of what it holds. -/
lemma form_expr (e : Expr) :
    (expr e).form = e.frame.form ((expr e).ops.map Op.form) (e.args.map Expr.form) := by
  rw [form_eq, exprs_expr]
  rfl

end Node

namespace Form

/-- A token is its own text. -/
@[simp] lemma text_atom (s : String) : (atom s).text = s := by
  rw [text]

/-- A labelled form prints as the label, a blank and the form, in brackets. -/
@[simp] lemma text_labelled (label : String) (f : Form) :
    (labelled label f).text = "(" ++ label ++ " " ++ f.text ++ ")" := by
  rw [labelled, text_list]
  simp [text_atom, String.append_assoc]

/-- The text of a list that begins with a word. -/
@[simp] lemma text_list_atom (s : String) (items : List Form) :
    (list (atom s :: items)).text = "(" ++ s ++ following items ++ ")" := by
  rw [text_list_cons, text_atom]

end Form

/-! ### Texts and forms -/

section

variable {es : List Expr} {b : Bindings Expr} {keys : List (SortKey Expr)} {os : List Op}

open Form

/-- A list of forms of expressions prints as the list of the expressions. -/
lemma text_list_form (h : ∀ e ∈ es, e.form.text = e.text) :
    (list (es.map Expr.form)).text = Piece.render (Piece.exprList es) := by
  rw [text_list, Piece.exprList, Piece.render_bracketed, List.map_map, List.map_map]
  congr 3
  refine List.map_congr_left fun e he => (h e he).trans ?_
  simp [Expr.text]

/-- The form of a binding list prints as the binding list. -/
lemma text_bindings_form (h : ∀ e ∈ b.values, e.form.text = e.text) :
    (Form.bindings b.vars (b.values.map Expr.form)).text = Piece.render (Piece.bindingList b) := by
  rw [Form.bindings, text_list, Piece.bindingList, Piece.render_bracketed, Bindings.vars,
    Bindings.values, List.map_map, List.zipWith_map, List.zipWith_self, List.map_map, List.map_map]
  congr 3
  refine List.map_congr_left fun p hp => ?_
  have hvalue := h p.2 (List.mem_map_of_mem hp)
  simp [text_labelled, hvalue, Expr.text, String.append_assoc]

/-- The forms of sort keys print as the sort keys. -/
lemma text_keys_form (h : ∀ e ∈ keys.map (·.key), e.form.text = e.text) :
    (list (keys.map fun k => labelled k.direction.word k.key.form)).text =
      Piece.render (Piece.keyList keys) := by
  rw [text_list, Piece.keyList, Piece.render_bracketed, List.map_map, List.map_map]
  congr 3
  refine List.map_congr_left fun ⟨d, e⟩ hk => ?_
  have hkey := h e (List.mem_map_of_mem hk)
  cases d <;> simp [hkey, Direction.word, ← String.append_assoc]

/-- Forms after the first item print as the nodes do after a blank. -/
lemma following_form {α : Type} {f : α → Node} {as : List α}
    (h : ∀ a ∈ as, (f a).form.text = (f a).text) :
    following (as.map fun a => (f a).form) = Piece.render (Piece.each (as.map f)) := by
  induction as with
  | nil => rfl
  | cons a as ih =>
    have hrest := ih fun a ha => h a (.tail _ ha)
    show following ((f a).form :: as.map fun a => (f a).form) =
      Piece.render (.text " " :: .part (f a) :: Piece.each (as.map f))
    rw [following_cons, h a (.head _), hrest, Piece.render_text, Piece.render_part,
      String.append_assoc]

end

open Form in
/-- The form of an operator prints as the operator, if those of what it holds do. -/
lemma Op.form_text {o : Op} (hops : ∀ p ∈ o.children, p.form.text = p.text)
    (hexprs : ∀ e ∈ o.exprs, e.form.text = e.text) : o.form.text = o.text := by
  rw [form, text, Node.form_op, Node.text_eq, Node.pieces]
  apply String.ext
  cases o with
  | scan table other => cases other <;> simp [frame, Frame.form, pieces]
  | empty => simp [frame, Frame.form, pieces]
  | filter conditions input =>
    have hconditions : (list (conditions.map Expr.form)).text = _ := text_list_form hexprs
    simp [frame, Frame.form, pieces, children, exprs, hconditions, hops input (.head _)]
  | project vars input =>
    have hvars : (list (vars.map fun v => atom v.text)).text = Var.listText vars := by
      simp [text_list, Var.listText, Function.comp_def]
    simp [frame, Frame.form, pieces, children, hvars, hops input (.head _)]
  | distinct input | slice offset limit input =>
    simp [frame, Frame.form, pieces, children, hops input (.head _)]
  | order keys input =>
    have hkeys := text_keys_form hexprs
    simp [frame, Frame.form, pieces, children, exprs, hkeys, hops input (.head _)]
  | extend b input =>
    have hb := text_bindings_form hexprs
    simp [frame, Frame.form, pieces, children, exprs, hb, hops input (.head _)]
  | group keys aggregates input =>
    have hkeys := text_bindings_form fun e he => hexprs e (List.mem_append_left _ he)
    have haggregates := text_bindings_form fun e he => hexprs e (List.mem_append_right _ he)
    have hlength : (keys.values.map Expr.form).length = keys.vars.length := by
      simp [Bindings.values, Bindings.vars]
    simp [frame, Frame.form, pieces, children, exprs, hkeys, haggregates, hops input (.head _),
      List.take_left' hlength, List.drop_left' hlength]
  | join left right method =>
    have hleft := hops left (.head _)
    have hright := hops right (.tail _ (.head _))
    cases method <;>
      simp [frame, Frame.form, pieces, children, JoinMethod.word, JoinMethod.joinHead, hleft,
        hright]
  | leftJoin left right conditions =>
    have hleft := hops left (.head _)
    have hright := hops right (.tail _ (.head _))
    cases conditions with
    | nil => simp [frame, Frame.form, pieces, children, exprs, hleft, hright]
    | cons c cs =>
      have hconditions : (list (c.form :: cs.map Expr.form)).text = _ := text_list_form hexprs
      simp [frame, Frame.form, pieces, children, exprs, hconditions, hleft, hright]
  | union left right | minus left right =>
    have hleft := hops left (.head _)
    have hright := hops right (.tail _ (.head _))
    simp [frame, Frame.form, pieces, children, hleft, hright]
  | sequence os | disjunction os =>
    have hos : following (os.map Op.form) = _ := following_form (f := .op) hops
    simp [frame, Frame.form, pieces, children, hos]

/-- The form of an expression prints as the expression, if those of what it holds do. -/
lemma Expr.form_text {e : Expr} (hops : ∀ o ∈ (Node.expr e).ops, o.form.text = o.text)
    (hargs : ∀ a ∈ e.args, a.form.text = a.text) : e.form.text = e.text := by
  rw [form, text, Node.form_expr, Node.text_eq, Node.pieces]
  apply String.ext
  rcases e with v | v | ⟨f, es⟩ | ⟨f, distinct, _ | arg⟩ | ⟨negated, o⟩
  case const | var => simp [frame, Frame.form, pieces]
  case function =>
    have hitems : Form.following (es.map Expr.form) = _ := following_form (f := .expr) hargs
    simp [frame, Frame.form, pieces, args, hitems]
  case aggregate.none =>
    cases distinct <;> simp [frame, Frame.form, pieces, args]
  case aggregate.some =>
    cases distinct <;> simp [frame, Frame.form, pieces, args, hargs arg (.head _)]
  case existence =>
    have hop : (Node.expr (existence negated o)).ops = [o] := rfl
    cases negated <;> simp [frame, Frame.form, pieces, hop, hops o (.head _)]

/-- The text of a node is that of its form. -/
theorem Node.text_form (n : Node) : n.form.text = n.text := by
  induction n using inductionOnParts with
  | step n ih =>
    cases n with
    | op o =>
      refine Op.form_text (fun p hp => ?_) fun e he => ?_
      · exact ih (.op p) (mem_ops.1 (ops_op o ▸ hp))
      · exact ih (.expr e) (mem_exprs.1 (exprs_op o ▸ he))
    | expr e =>
      refine Expr.form_text (fun p hp => ?_) fun a ha => ?_
      · exact ih (.op p) (mem_ops.1 hp)
      · exact ih (.expr a) (mem_exprs.1 (exprs_expr e ▸ ha))

namespace Root

/-- A list of expressions prints as the list of their forms. -/
lemma text_exprs (es : List Expr) : (exprs es).text = (Form.list (es.map Expr.form)).text :=
  (text_list_form fun e _ => (Node.expr e).text_form).symm

/-- A binding list prints as its form. -/
lemma text_bindings (b : Bindings Expr) :
    (bindings b).text = (Form.bindings b.vars (b.values.map Expr.form)).text :=
  (text_bindings_form fun e _ => (Node.expr e).text_form).symm

end Root

end QueryPlan
