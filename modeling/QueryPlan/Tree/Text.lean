import QueryPlan.Tree.Basic

/-!
# The printed form of plans

A node prints as a bracketed form. `Node.pieces` lays that form out as fixed text and the parts that
stand in it; `Node.text` fills in the parts. `Node.text_eq` is the resulting equation, and
`Node.filterMap_part?_pieces` says that the parts stand in the text in visiting order, each once.
-/

namespace QueryPlan

/-- A stretch of a printed form: fixed text, or the place of a part. -/
inductive Piece where
  | text (text : String)
  | part (part : Node)

namespace Piece

/-- The part, of a piece that is one. -/
def part? : Piece → Option Node
  | text _ => none
  | part n => some n

/-- Parts in brackets, with single blanks between them. -/
def bracketed (items : List (List Piece)) : List Piece :=
  text "(" :: (items.intersperse [text " "]).flatten ++ [text ")"]

/-- Expressions in brackets. -/
def exprList (es : List Expr) : List Piece := bracketed (es.map fun e => [part (.expr e)])

/-- A binding list: each variable in brackets with its expression. -/
def bindingList (b : Bindings Expr) : List Piece :=
  bracketed (b.entries.map fun (v, e) => [text ("(" ++ v.text ++ " "), part (.expr e), text ")"])

/-- Sort keys, each in brackets with its direction. -/
def keyList (keys : List (SortKey Expr)) : List Piece :=
  bracketed (keys.map fun k =>
    [text (match k.direction with | .ascending => "(asc " | .descending => "(desc "),
      part (.expr k.key), text ")"])

/-- Parts that each follow a blank. -/
def each (ns : List Node) : List Piece := ns.flatMap fun n => [text " ", part n]

/-- An operator that follows a blank and ends the form. -/
def last (o : Op) : List Piece := [text " ", part (.op o), text ")"]

end Piece

/-- Variables in brackets, with single blanks between them. -/
def Var.listText (vars : List Var) : String := "(" ++ " ".intercalate (vars.map Var.text) ++ ")"

/-- A bound of a slice; `_` if it is missing. -/
def boundText : Option UInt64 → String
  | some n => toString n.toNat
  | none => "_"

/-- The head of a join: the method is named unless it is left open. -/
def JoinMethod.joinHead : JoinMethod → String
  | auto => "(join"
  | nestedLoop => "(join[NestedLoop]"
  | hash => "(join[Hash]"

open Piece in
/-- The printed form of an operator. A left join without conditions leaves them out. -/
def Op.pieces : Op → List Piece
  | scan table none => [text ("(scan " ++ table ++ ")")]
  | scan table (some other) => [text ("(scan " ++ table ++ " as " ++ other ++ ")")]
  | empty => [text "(empty)"]
  | filter conditions input => text "(filter " :: exprList conditions ++ last input
  | project vars input => text ("(project " ++ Var.listText vars) :: last input
  | distinct input => text "(distinct" :: last input
  | slice offset limit input =>
    text ("(slice " ++ boundText offset ++ " " ++ boundText limit) :: last input
  | order keys input => text "(order " :: keyList keys ++ last input
  | extend b input => text "(extend " :: bindingList b ++ last input
  | group keys aggregates input =>
    text "(group " :: bindingList keys ++ text " " :: bindingList aggregates ++ last input
  | join left right method =>
    [text (method.joinHead ++ " "), part (.op left)] ++ last right
  | leftJoin left right [] => [text "(leftjoin ", part (.op left)] ++ last right
  | leftJoin left right (c :: cs) =>
    [text "(leftjoin ", part (.op left), text " ", part (.op right), text " "] ++
      exprList (c :: cs) ++ [text ")"]
  | union left right => [text "(union ", part (.op left)] ++ last right
  | minus left right => [text "(minus ", part (.op left)] ++ last right
  | sequence ops => text "(sequence" :: each (ops.map .op) ++ [text ")"]
  | disjunction ops => text "(disjunction" :: each (ops.map .op) ++ [text ")"]

open Piece in
/-- The printed form of an expression. -/
def Expr.pieces : Expr → List Piece
  | const v => [text v.text]
  | var v => [text v.text]
  | function f args => text ("(" ++ f.symbol) :: each (args.map .expr) ++ [text ")"]
  | aggregate f distinct none =>
    [text ("(" ++ f.name ++ if distinct then " distinct *)" else " *)")]
  | aggregate f distinct (some arg) =>
    [text ("(" ++ f.name ++ if distinct then " distinct " else " "), part (.expr arg), text ")"]
  | existence negated o =>
    [text (if negated then "(notexists " else "(exists "), part (.op o), text ")"]

/-- The parts of a bracketed form are those of its items. -/
theorem Piece.filterMap_part?_bracketed (items : List (List Piece)) :
    (bracketed items).filterMap part? = items.flatMap (·.filterMap part?) := by
  suffices h : ((items.intersperse [text " "]).flatten).filterMap part? =
      items.flatMap (·.filterMap part?) by
    simp [bracketed, List.filterMap_cons, part?, h]
  induction items with
  | nil => rfl
  | cons a as ih =>
    cases as with
    | nil => simp
    | cons b bs => simp_all [List.filterMap_cons, part?]

/-- If each item has one part, the parts of a bracketed form are these in turn. -/
theorem Piece.filterMap_part?_bracketed_map {α : Type} {f : α → List Piece} {g : α → Node}
    (h : ∀ a, (f a).filterMap part? = [g a]) (as : List α) :
    (bracketed (as.map f)).filterMap part? = as.map g := by
  rw [filterMap_part?_bracketed, List.flatMap_map, List.map_eq_flatMap]
  simp only [h]

/-- The parts in a printed list of expressions are these expressions. -/
theorem Piece.filterMap_part?_exprList (es : List Expr) :
    (exprList es).filterMap part? = es.map .expr :=
  filterMap_part?_bracketed_map (fun _ => rfl) es

/-- The parts in a printed binding list are its values. -/
theorem Piece.filterMap_part?_bindingList (b : Bindings Expr) :
    (bindingList b).filterMap part? = b.values.map .expr := by
  rw [Bindings.values, List.map_map]
  exact filterMap_part?_bracketed_map (fun _ => rfl) b.entries

/-- The parts in printed sort keys are the expressions to sort by. -/
theorem Piece.filterMap_part?_keyList (keys : List (SortKey Expr)) :
    (keyList keys).filterMap part? = keys.map fun k => .expr k.key :=
  filterMap_part?_bracketed_map (fun _ => rfl) keys

/-- The parts that are printed after blanks are the ones that were given. -/
theorem Piece.filterMap_part?_each (ns : List Node) : (each ns).filterMap part? = ns := by
  induction ns with
  | nil => rfl
  | cons n ns ih => simp_all [each, List.filterMap_cons, part?]

/-- The only part at the end of a form is the operator that stands there. -/
theorem Piece.filterMap_part?_last (o : Op) : (last o).filterMap part? = [.op o] := rfl

namespace Node

/-- The printed form of a node, as fixed text and places of parts. -/
def pieces : Node → List Piece
  | op o => o.pieces
  | expr e => e.pieces

open Piece in
/-- The parts stand in the printed form in visiting order, each once. -/
theorem filterMap_part?_pieces (n : Node) : n.pieces.filterMap part? = n.parts := by
  rcases n with o | e
  · cases o with
    | scan table other => cases other <;> rfl
    | leftJoin left right conditions =>
      cases conditions <;>
        simp [pieces, Op.pieces, parts, Op.parts, List.filterMap_cons, part?,
          filterMap_part?_exprList, filterMap_part?_last]
    | _ =>
      simp [pieces, Op.pieces, parts, Op.parts, List.filterMap_cons, part?,
        filterMap_part?_exprList, filterMap_part?_bindingList, filterMap_part?_keyList,
        filterMap_part?_each, filterMap_part?_last]
  · cases e with
    | aggregate f distinct arg => cases arg <;> rfl
    | _ =>
      simp [pieces, Expr.pieces, parts, Expr.parts, List.filterMap_cons, part?,
        filterMap_part?_each]

/-- A part that stands in the printed form is one of the parts. -/
theorem mem_parts_of_part_mem_pieces {n p : Node} (h : .part p ∈ n.pieces) : p ∈ n.parts := by
  rw [← filterMap_part?_pieces]
  exact List.mem_filterMap.2 ⟨_, h, rfl⟩

/-- Write the text of a node after what was written before, piece by piece. -/
def write (n : Node) (out : String) : String :=
  n.pieces.attach.foldl (fun out ⟨p, _⟩ =>
    match p with
    | .text s => out ++ s
    | .part m => m.write out) out
termination_by sizeOf n
decreasing_by exact sizeOf_lt_of_mem_parts (mem_parts_of_part_mem_pieces ‹_›)

/-- The text of a node. -/
def text (n : Node) : String := n.write ""

end Node

/-- The text of a printed form: its fixed text, with the text of each part in its place. -/
def Piece.render (ps : List Piece) : String :=
  String.join (ps.map fun
    | .text s => s
    | .part n => n.text)

namespace Node

/-- A node is written piece by piece, and each part in it in the same way. -/
theorem write_eq_foldl (n : Node) (out : String) :
    n.write out = n.pieces.foldl (fun out p =>
      match p with
      | .text s => out ++ s
      | .part m => m.write out) out := by
  rw [write]
  conv => rhs; rw [← List.attach_map_subtype_val n.pieces, List.foldl_map]
  congr 1
  funext out ⟨p, h⟩
  cases p <;> rfl

/-- Writing leaves what was written before as it is. -/
theorem write_eq_append (n : Node) (out : String) : n.write out = out ++ Piece.render n.pieces := by
  induction n using inductionOnParts generalizing out with
  | step n ih =>
    rw [write_eq_foldl]
    have h : ∀ p, .part p ∈ n.pieces → ∀ out, p.write out = out ++ p.text := fun p hp out => by
      have := ih p (mem_parts_of_part_mem_pieces hp)
      rw [text, this, this, String.empty_append]
    generalize n.pieces = ps at h
    induction ps generalizing out with
    | nil => simp [Piece.render]
    | cons p ps ihps =>
      rw [List.foldl_cons, ihps (h := fun q hq => h q (List.mem_cons_of_mem _ hq))]
      cases p with
      | text s => simp [Piece.render, String.append_assoc]
      | part m => simp [Piece.render, String.append_assoc, h m (List.mem_cons_self ..)]

/-- The text of a node is that of its printed form. -/
theorem text_eq (n : Node) : n.text = Piece.render n.pieces := by
  rw [text, write_eq_append, String.empty_append]

end Node

/-- The text of an operator. -/
def Op.text (o : Op) : String := (Node.op o).text

/-- The text of an expression. -/
def Expr.text (e : Expr) : String := (Node.expr e).text

/-- Variables are shown as plans print them. -/
instance : ToString Var := ⟨Var.text⟩

/-- Operators are shown as plans print them. -/
instance : ToString Op := ⟨Op.text⟩

/-- Expressions are shown as plans print them. -/
instance : ToString Expr := ⟨Expr.text⟩

end QueryPlan
