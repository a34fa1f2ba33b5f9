import Mathlib
import QueryPlan.Proofs.ReadableForms

/-!
# Reading plans back

A readable plan can be read back from its text: the form of a node determines its frame and the
forms of its parts (`Op.eq_of_form`, `Expr.eq_of_form`), and so by induction the form of a tree
determines the tree (`Node.Readable.eq_of_form`). Texts determine forms, as these are forms of
tokens.

`text_injective_of_readable` is the result for trees and lists.
-/

namespace QueryPlan

/-! ### What a form determines -/

/-- Bounds with one text are equal. -/
lemma boundText_inj {b c : Option UInt64} (h : boundText b = boundText c) : b = c := by
  have hnone (n : UInt64) : boundText none ≠ boundText (some n) := by
    intro h
    have hmem : '_' ∈ n.toNat.repr.toList := by
      show '_' ∈ (boundText (some n)).toList
      rw [← h]
      decide
    exact absurd (plain_nat _ _ hmem) (by decide)
  cases b with
  | none =>
    cases c with
    | none => rfl
    | some n => exact absurd h (hnone n)
  | some m =>
    cases c with
    | none => exact absurd h.symm (hnone m)
    | some n => exact congrArg some (UInt64.toNat_inj.1 (Nat.repr_inj.1 h))

/-- There are as many values as variables. -/
lemma Bindings.length_values {α : Type} (b : Bindings α) : b.values.length = b.vars.length := by
  rw [values, vars, List.length_map, List.length_map]

/-- Variables with one text are equal. -/
lemma Var.text_inj {v w : Var} (h : v.text = w.text) : v = w := by
  cases v
  cases w
  exact congrArg mk ((String.append_right_inj "?").1 h)

/-- Directions with one word are equal. -/
lemma Direction.word_inj {c d : Direction} (h : c.word = d.word) : c = d := by
  cases c <;> cases d <;> first | rfl | exact absurd h (by decide)

/-- Methods of a join with one word are equal. -/
lemma JoinMethod.word_inj {m n : JoinMethod} (h : m.word = n.word) : m = n := by
  cases m <;> cases n <;> first | rfl | exact absurd h (by decide)

namespace Form

/-- Equal tokens have equal texts. -/
lemma atom_inj {s t : String} (h : atom s = atom t) : s = t := by
  cases h
  rfl

/-- Equal lists have equal items. -/
lemma list_inj {fs gs : List Form} (h : list fs = list gs) : fs = gs := by
  cases h
  rfl

/-- Forms with as many labels determine both. -/
lemma zipWith_labelled_inj {α : Type} {label : α → String} (hlabel : Function.Injective label)
    {as bs : List α} {fs gs : List Form} (hfs : fs.length = as.length) (hgs : gs.length = bs.length)
    (h : as.zipWith (fun a f => labelled (label a) f) fs =
      bs.zipWith (fun a f => labelled (label a) f) gs) : as = bs ∧ fs = gs := by
  induction as generalizing bs fs gs with
  | nil =>
    cases List.length_eq_zero_iff.1 hfs
    cases bs with
    | nil => exact ⟨rfl, (List.length_eq_zero_iff.1 hgs).symm⟩
    | cons b bs =>
      cases gs with
      | nil => cases hgs
      | cons => cases h
  | cons a as ih =>
    cases fs with
    | nil => cases hfs
    | cons f fs =>
      cases bs with
      | nil => cases h
      | cons b bs =>
        cases gs with
        | nil => cases hgs
        | cons g gs =>
          obtain ⟨hhead, htail⟩ := List.cons.inj h
          obtain ⟨hab, hfg⟩ := List.cons.inj (list_inj hhead)
          cases hlabel (atom_inj hab)
          cases (List.cons.inj hfg).1
          obtain ⟨rfl, rfl⟩ := ih (Nat.succ.inj hfs) (Nat.succ.inj hgs) htail
          exact ⟨rfl, rfl⟩

/-- The word that a form begins with, without the method of a join. -/
def kind? : Form → Option String
  | list (atom s :: _) => some (if s = "join[NestedLoop]" ∨ s = "join[Hash]" then "join" else s)
  | _ => none

end Form

/-- The form of an operator begins with the name of the operator. -/
lemma Op.kind?_form (o : Op) (ops exprs : List Form) :
    (o.frame.form ops exprs).kind? = some o.name := by
  cases o with
  | scan table other => cases other <;> rfl
  | join left right method => cases method <;> rfl
  | _ => rfl

open Form in
/-- The form of an operator determines its frame and the forms that it was put together from. -/
lemma Op.eq_of_form {o p : Op} {ops exprs ops' exprs' : List Form}
    (hops : ops.length = o.children.length) (hexprs : exprs.length = o.exprs.length)
    (hops' : ops'.length = p.children.length) (hexprs' : exprs'.length = p.exprs.length)
    (h : o.frame.form ops exprs = p.frame.form ops' exprs') :
    o.frame = p.frame ∧ ops = ops' ∧ exprs = exprs' := by
  have hname : o.name = p.name := by
    have hkind := congrArg Form.kind? h
    rw [o.kind?_form, p.kind?_form] at hkind
    exact Option.some.inj hkind
  have hnone {fs gs : List Form} (hfs : fs.length = 0) (hgs : gs.length = 0) : fs = gs := by
    rw [List.length_eq_zero_iff.1 hfs, List.length_eq_zero_iff.1 hgs]
  have hvars {vars vars' : List Var} {fs gs : List Form} (hfs : fs.length = vars.length)
      (hgs : gs.length = vars'.length) (h : Form.bindings vars fs = Form.bindings vars' gs) :
      vars = vars' ∧ fs = gs :=
    zipWith_labelled_inj (fun _ _ => Var.text_inj) hfs hgs (list_inj h)
  cases o <;> cases p
  case scan.scan table other table' other' =>
    refine ⟨?_, hnone hops hops', hnone hexprs hexprs'⟩
    cases other <;> cases other' <;> simp_all [frame, Frame.form]
  case empty.empty => exact ⟨rfl, hnone hops hops', hnone hexprs hexprs'⟩
  case filter.filter =>
    obtain ⟨hconditions, hrest⟩ := List.cons.inj (List.cons.inj (list_inj h)).2
    exact ⟨rfl, hrest, list_inj hconditions⟩
  case project.project vars _ vars' _ =>
    obtain ⟨hlist, hrest⟩ := List.cons.inj (List.cons.inj (list_inj h)).2
    have heq : vars = vars' :=
      List.map_injective_iff.2 (fun _ _ h => Var.text_inj (atom_inj h)) (list_inj hlist)
    exact ⟨congrArg Frame.project heq, hrest, hnone hexprs hexprs'⟩
  case distinct.distinct | union.union | minus.minus | sequence.sequence |
      disjunction.disjunction =>
    exact ⟨rfl, (List.cons.inj (list_inj h)).2, hnone hexprs hexprs'⟩
  case slice.slice =>
    obtain ⟨hoffset, hrest⟩ := List.cons.inj (List.cons.inj (list_inj h)).2
    obtain ⟨hlimit, hrest⟩ := List.cons.inj hrest
    have hframe := congrArg₂ Frame.slice (boundText_inj (atom_inj hoffset))
      (boundText_inj (atom_inj hlimit))
    exact ⟨hframe, hrest, hnone hexprs hexprs'⟩
  case order.order keys _ keys' _ =>
    obtain ⟨hkeys, hrest⟩ := List.cons.inj (List.cons.inj (list_inj h)).2
    have hlength (keys : List (SortKey Expr)) :
        (keys.map (·.key)).length = (keys.map (·.direction)).length := by simp
    obtain ⟨hdirections, heq⟩ := zipWith_labelled_inj (fun _ _ => Direction.word_inj)
      (hexprs.trans (hlength keys)) (hexprs'.trans (hlength keys')) (list_inj hkeys)
    exact ⟨congrArg Frame.order hdirections, hrest, heq⟩
  case extend.extend b _ b' _ =>
    obtain ⟨hb, hrest⟩ := List.cons.inj (List.cons.inj (list_inj h)).2
    obtain ⟨heq, hvalues⟩ :=
      hvars (hexprs.trans b.length_values) (hexprs'.trans b'.length_values) hb
    exact ⟨congrArg Frame.extend heq, hrest, hvalues⟩
  case group.group keys aggregates _ keys' aggregates' _ =>
    obtain ⟨hkeys, hrest⟩ := List.cons.inj (List.cons.inj (list_inj h)).2
    obtain ⟨haggregates, hrest⟩ := List.cons.inj hrest
    have hdealt {keys aggregates : Bindings Expr} {input : Op} {fs : List Form}
        (h : fs.length = (group keys aggregates input).exprs.length) :
        (fs.take keys.vars.length).length = keys.vars.length ∧
          (fs.drop keys.vars.length).length = aggregates.vars.length := by
      have hsize (b : Bindings Expr) : b.vars.length = b.size := List.length_map _
      rw [hsize, hsize]
      exact length_dealt h
    obtain ⟨htake, hdrop⟩ := hdealt hexprs
    obtain ⟨htake', hdrop'⟩ := hdealt hexprs'
    obtain ⟨hkeyVars, hkeys⟩ := hvars htake htake' hkeys
    obtain ⟨haggregateVars, haggregates⟩ := hvars hdrop hdrop' haggregates
    refine ⟨congrArg₂ Frame.group hkeyVars haggregateVars, hrest, ?_⟩
    rw [← List.take_append_drop keys.vars.length exprs, hkeys, haggregates, List.take_append_drop]
  case join.join =>
    obtain ⟨hmethod, hrest⟩ := List.cons.inj (list_inj h)
    have hframe := congrArg Frame.join (JoinMethod.word_inj (atom_inj hmethod))
    exact ⟨hframe, hrest, hnone hexprs hexprs'⟩
  case leftJoin.leftJoin =>
    obtain ⟨heq, hrest⟩ := List.append_inj (List.cons.inj (list_inj h)).2 (hops.trans hops'.symm)
    refine ⟨rfl, heq, ?_⟩
    cases exprs <;> cases exprs'
    case nil.nil => rfl
    case nil.cons | cons.nil => cases hrest
    case cons.cons => exact list_inj (List.cons.inj hrest).1
  all_goals exact absurd hname (by simp [name])

/-- A text with a character that is neither a sign nor a digit is not that of a number. -/
lemma repr_ne {i : Int} {s : String} {c : Char} (hc : c ∈ s.toList)
    (hplain : ¬ (c = '-' ∨ c.isDigit = true)) : i.repr ≠ s := by
  rintro rfl
  exact hplain (plain_int i c hc)

/-- No readable literal of another kind prints like an integer. -/
lemma Value.text_int_ne {i : Int64} {v : Value} (hv : (Frame.const v).Readable)
    (h : ∀ j, v ≠ int j) : (int i).text ≠ v.text := by
  cases v with
  | int j => exact absurd rfl (h j)
  | double x => exact hv.elim
  | null => exact repr_ne (c := 'n') (by decide) (by decide)
  | string s => exact repr_ne (c := '"') (by simp [text]) (by decide)
  | bool b =>
    cases b with
    | true => exact repr_ne (c := 't') (by decide) (by decide)
    | false => exact repr_ne (c := 'f') (by decide) (by decide)

/-- Readable literals with one text are equal. -/
lemma Value.text_inj {v w : Value} (hv : (Frame.const v).Readable) (hw : (Frame.const w).Readable)
    (h : v.text = w.text) : v = w := by
  have hchars := congrArg String.toList h
  rcases v with _ | i | x | s | _ | _
  case double => exact hv.elim
  case int =>
    cases w with
    | int j => exact congrArg int (Int64.toInt_inj.1 (Int.repr_inj.1 h))
    | _ => exact absurd h (text_int_ne hw (fun _ => nofun))
  all_goals
    rcases w with _ | j | y | t | _ | _
    case double => exact hw.elim
    case int => exact absurd h.symm (text_int_ne hv (fun _ => nofun))
    all_goals first
      | rfl
      | exact congrArg string (String.ext (by simpa [text] using hchars))
      | simp [text] at hchars

/-- Neither a variable nor a star looks like a literal. -/
lemma Value.text_ne {v : Value} (hv : (Frame.const v).Readable) {s : String} {c : Char}
    {cs : List Char} (hs : s.toList = c :: cs) (hc : c = '?' ∨ c = '*') : v.text ≠ s := by
  intro h
  have hchars := congrArg String.toList h
  rw [hs] at hchars
  rcases v with _ | i | x | t | _ | _
  case double => exact hv.elim
  case int =>
    have hmem : c ∈ i.toInt.repr.toList := hchars ▸ .head _
    have hplain := plain_int _ c hmem
    rcases hc with rfl | rfl <;> (revert hplain; decide)
  all_goals rcases hc with rfl | rfl <;> simp [text] at hchars

/-- Readable functions with one symbol are equal. -/
lemma Func.symbol_inj {f g : Func} (hf : f.Readable) (hg : g.Readable) (h : f.symbol = g.symbol) :
    f = g := by
  have hcall {f : Func} {name : String} (hf : f ∈ builtIn) (hname : (call name).Readable) :
      f.symbol ≠ name := by
    rintro rfl
    exact hname.2.1 (List.mem_map_of_mem hf)
  rcases f.mem_builtIn_or with hf' | ⟨name, rfl⟩
  · rcases g.mem_builtIn_or with hg' | ⟨name, rfl⟩
    · exact List.inj_on_of_nodup_map (by decide : (builtIn.map symbol).Nodup) hf' hg' h
    · exact absurd h (hcall hf' hg)
  · rcases g.mem_builtIn_or with hg' | ⟨name', rfl⟩
    · exact absurd h.symm (hcall hg' hf)
    · exact congrArg call h

/-- Functions are not called like aggregates and existence tests. -/
lemma Func.Readable.symbol_ne {f : Func} (h : f.Readable) {s : String} (hs : s ∈ Expr.keywords) :
    f.symbol ≠ s := by
  rcases f.mem_builtIn_or with hf | ⟨name, rfl⟩
  · exact (by decide : ∀ f ∈ builtIn, ∀ s ∈ Expr.keywords, f.symbol ≠ s) f hf s hs
  · rintro rfl
    exact h.2.2 hs

/-- Aggregate functions with one name are equal. -/
lemma AggregateFunc.name_inj {f g : AggregateFunc} (h : f.name = g.name) : f = g := by
  cases f <;> cases g <;> first | rfl | exact absurd h (by decide)

/-- The name of an aggregate function is a keyword. -/
lemma AggregateFunc.name_mem_keywords (f : AggregateFunc) : f.name ∈ Expr.keywords := by
  cases f <;> decide

/-- The words for existence tests are keywords. -/
lemma existenceWord_mem (negated : Bool) :
    (if negated then "notexists" else "exists") ∈ Expr.keywords := by
  cases negated <;> decide

/-- No aggregate function is named like an existence test. -/
lemma AggregateFunc.name_ne_existenceWord (f : AggregateFunc) (negated : Bool) :
    f.name ≠ if negated then "notexists" else "exists" := by
  cases f <;> cases negated <;> decide

/-- No readable expression prints as the star in the place of an argument. -/
lemma Node.Readable.form_ne_star {e : Expr} (h : (Node.expr e).Readable) : e.form ≠ .atom "*" := by
  have hframe : e.frame.Readable := h _ .here
  rw [Expr.form, Node.form_expr]
  intro heq
  cases e with
  | const v => exact Value.text_ne hframe (s := "*") rfl (.inr rfl) (Form.atom_inj heq)
  | var v =>
    have hchars := congrArg String.toList (Form.atom_inj heq)
    simp [Var.text] at hchars
  | function | aggregate | existence => cases heq

open Form in
/-- The argument of an aggregate is no star, so it shows whether there is one. -/
lemma aggregateItems_inj {once once' : Bool} {args args' : List Form} (hargs : args.length ≤ 1)
    (hargs' : args'.length ≤ 1) (hstar : atom "*" ∉ args) (hstar' : atom "*" ∉ args')
    (h : ((if once then [atom "distinct"] else []) ++ if args.isEmpty then [atom "*"] else args) =
      (if once' then [atom "distinct"] else []) ++ if args'.isEmpty then [atom "*"] else args') :
    once = once' ∧ args = args' := by
  have hshort {fs : List Form} (h : fs.length ≤ 1) : fs = [] ∨ ∃ f, fs = [f] := by
    match fs, h with
    | [], _ => exact .inl rfl
    | [f], _ => exact .inr ⟨f, rfl⟩
  rcases hshort hargs with rfl | ⟨f, rfl⟩ <;> rcases hshort hargs' with rfl | ⟨g, rfl⟩ <;>
    cases once <;> cases once' <;> simp_all

open Form in
/-- The form of an expression determines its frame and the forms that it was put together from. -/
lemma Expr.eq_of_form {e e' : Expr} (he : e.frame.Readable) (he' : e'.frame.Readable)
    {ops args ops' args' : List Form} (hops : ops.length = (Node.expr e).ops.length)
    (hargs : args.length = e.args.length) (hops' : ops'.length = (Node.expr e').ops.length)
    (hargs' : args'.length = e'.args.length) (hstar : atom "*" ∉ args) (hstar' : atom "*" ∉ args')
    (h : e.frame.form ops args = e'.frame.form ops' args') :
    e.frame = e'.frame ∧ ops = ops' ∧ args = args' := by
  have hnone {fs gs : List Form} (hfs : fs.length = 0) (hgs : gs.length = 0) : fs = gs := by
    rw [List.length_eq_zero_iff.1 hfs, List.length_eq_zero_iff.1 hgs]
  have hvar (v : Var) : v.text.toList = '?' :: v.name.toList := by simp [Var.text]
  cases e <;> cases e'
  case const.const =>
    have hframe := congrArg Frame.const (Value.text_inj he he' (atom_inj h))
    exact ⟨hframe, hnone hops hops', hnone hargs hargs'⟩
  case var.var =>
    have hframe := congrArg Frame.var (Var.text_inj (atom_inj h))
    exact ⟨hframe, hnone hops hops', hnone hargs hargs'⟩
  case const.var => exact absurd (atom_inj h) (Value.text_ne he (hvar _) (.inl rfl))
  case var.const => exact absurd (atom_inj h).symm (Value.text_ne he' (hvar _) (.inl rfl))
  case function.function f es g es' =>
    obtain ⟨hsymbol, hitems⟩ := List.cons.inj (list_inj h)
    rw [Node.ops_function] at hops hops'
    exact ⟨congrArg Frame.function (Func.symbol_inj he he' (atom_inj hsymbol)), hnone hops hops',
      hitems⟩
  case aggregate.aggregate f once arg g once' arg' =>
    obtain ⟨hname, hitems⟩ := List.cons.inj (list_inj h)
    obtain ⟨honce, heq⟩ := aggregateItems_inj (hargs.trans_le arg.length_toList_le)
      (hargs'.trans_le arg'.length_toList_le) hstar hstar' hitems
    have hnoOps (f : AggregateFunc) (once : Bool) (arg : Option Expr) :
        (Node.expr (aggregate f once arg)).ops.length = 0 := by cases arg <;> rfl
    exact ⟨congrArg₂ Frame.aggregate (AggregateFunc.name_inj (atom_inj hname)) honce,
      hnone (hops.trans (hnoOps ..)) (hops'.trans (hnoOps ..)), heq⟩
  case existence.existence negated _ negated' _ =>
    obtain ⟨hword, hitems⟩ := List.cons.inj (list_inj h)
    have hnegated : negated = negated' := by
      cases negated <;> cases negated' <;> first | rfl | exact absurd (atom_inj hword) (by decide)
    exact ⟨congrArg Frame.existence hnegated, hitems, hnone hargs hargs'⟩
  case function.aggregate f _ g _ _ =>
    exact absurd (atom_inj (List.cons.inj (list_inj h)).1) (he.symbol_ne g.name_mem_keywords)
  case aggregate.function f _ _ g _ =>
    exact absurd (atom_inj (List.cons.inj (list_inj h)).1).symm (he'.symbol_ne f.name_mem_keywords)
  case function.existence f _ negated _ =>
    exact absurd (atom_inj (List.cons.inj (list_inj h)).1)
      (he.symbol_ne (existenceWord_mem negated))
  case existence.function negated _ f _ =>
    exact absurd (atom_inj (List.cons.inj (list_inj h)).1).symm
      (he'.symbol_ne (existenceWord_mem negated))
  case aggregate.existence f _ _ negated _ =>
    exact absurd (atom_inj (List.cons.inj (list_inj h)).1) (f.name_ne_existenceWord negated)
  case existence.aggregate negated _ f _ _ =>
    exact absurd (atom_inj (List.cons.inj (list_inj h)).1).symm (f.name_ne_existenceWord negated)
  all_goals cases h

/-! ### Trees and lists -/

/-- Lists are equal if their images are and members with one image are. -/
lemma eq_of_map_eq {α β : Type} {f : α → β} {as bs : List α}
    (h : ∀ a ∈ as, ∀ b ∈ bs, f a = f b → a = b) (heq : as.map f = bs.map f) : as = bs := by
  induction as generalizing bs with
  | nil => exact (List.map_eq_nil_iff.1 heq.symm).symm
  | cons a as ih =>
    cases bs with
    | nil => cases heq
    | cons b bs =>
      obtain ⟨hhead, htail⟩ := List.cons.inj heq
      cases h a (.head _) b (.head _) hhead
      cases ih (fun a ha b hb => h a (.tail _ ha) b (.tail _ hb)) htail
      rfl

namespace Node.Readable

variable {m n : Node} {e : Expr}

/-- The operators that a readable node holds are readable. -/
lemma op_mem {o : Op} (h : n.Readable) (ho : o ∈ n.ops) : (op o).Readable := h.part (mem_ops.1 ho)

/-- The expressions that a readable node holds are readable. -/
lemma expr_mem (h : n.Readable) (he : e ∈ n.exprs) : (expr e).Readable := h.part (mem_exprs.1 he)

/-- There is no star among the forms of readable expressions. -/
lemma star_not_mem {es : List Expr} (h : ∀ e ∈ es, (expr e).Readable) :
    .atom "*" ∉ es.map Expr.form := by
  intro hmem
  obtain ⟨e, he, heq⟩ := List.mem_map.1 hmem
  exact (h e he).form_ne_star heq

/-- The frames are equal, and the forms of the parts are the same. -/
lemma eq_of_form_parts (hm : m.Readable) (hn : n.Readable) (hsort : m.sort = n.sort)
    (h : m.form = n.form) :
    m.frame = n.frame ∧ m.ops.map Op.form = n.ops.map Op.form ∧
      m.exprs.map Expr.form = n.exprs.map Expr.form := by
  cases m with
  | op o =>
    cases n with
    | op p =>
      rw [form_op, form_op] at h
      rw [ops_op, ops_op, exprs_op, exprs_op]
      exact Op.eq_of_form (List.length_map _) (List.length_map _) (List.length_map _)
        (List.length_map _) h
    | expr e => exact absurd hsort sort_op_ne_sort_expr
  | expr e =>
    cases n with
    | op p => exact absurd hsort.symm sort_op_ne_sort_expr
    | expr f =>
      have hargs {e : Expr} (h : (expr e).Readable) : ∀ a ∈ e.args, (expr a).Readable :=
        fun a ha => h.expr_mem (exprs_expr e ▸ ha)
      rw [form_expr, form_expr] at h
      rw [exprs_expr, exprs_expr]
      exact Expr.eq_of_form (hm _ .here) (hn _ .here) (List.length_map _) (List.length_map _)
        (List.length_map _) (List.length_map _) (star_not_mem (hargs hm))
        (star_not_mem (hargs hn)) h

/-- Readable plans of one sort and one form are equal. -/
theorem eq_of_form (hm : m.Readable) (hn : n.Readable) (hsort : m.sort = n.sort)
    (h : m.form = n.form) : m = n := by
  induction m using inductionOnParts generalizing n with
  | step m ih =>
    obtain ⟨hframe, hops, hexprs⟩ := hm.eq_of_form_parts hn hsort h
    have hops : m.ops = n.ops := by
      refine eq_of_map_eq (fun o ho p hp heq => ?_) hops
      exact op.inj (ih _ (mem_ops.1 ho) (hm.op_mem ho) (hn.op_mem hp) rfl heq)
    have hexprs : m.exprs = n.exprs := by
      refine eq_of_map_eq (fun e he f hf heq => ?_) hexprs
      exact expr.inj (ih _ (mem_exprs.1 he) (hm.expr_mem he) (hn.expr_mem hf) rfl heq)
    rw [← m.node_frame, ← n.node_frame, hframe, hops, hexprs]

/-- Readable plans of one sort and one text are equal. -/
theorem eq_of_text (hm : m.Readable) (hn : n.Readable) (hsort : m.sort = n.sort)
    (h : m.text = n.text) : m = n := by
  rw [← m.text_form, ← n.text_form] at h
  exact hm.eq_of_form hn hsort (hm.proper.eq_of_text hn.proper h)

end Node.Readable

/-- Readable expressions of one form are equal. -/
lemma Expr.eq_of_forms {es fs : List Expr} (hes : ∀ e ∈ es, (Node.expr e).Readable)
    (hfs : ∀ f ∈ fs, (Node.expr f).Readable) (h : es.map form = fs.map form) : es = fs :=
  eq_of_map_eq (fun e he f hf heq => Node.expr.inj ((hes e he).eq_of_form (hfs f hf) rfl heq)) h

/-- Readable expressions have forms of tokens. -/
lemma Expr.proper_of_mem {es : List Expr} (h : ∀ e ∈ es, (Node.expr e).Readable) :
    ∀ f ∈ es.map form, f.Proper := by
  intro f hf
  obtain ⟨e, he, rfl⟩ := List.mem_map.1 hf
  exact (h e he).proper

/-- The variables are words, and they are bound to readable expressions. -/
structure Bindings.Readable (b : Bindings Expr) : Prop where
  vars : ∀ v ∈ b.vars, Word v.name
  values : ∀ e ∈ b.values, (Node.expr e).Readable

/-- Readable binding lists of one text are equal. -/
lemma Bindings.Readable.eq_of_text {b c : Bindings Expr} (hb : b.Readable) (hc : c.Readable)
    (h : (Root.bindings b).text = (Root.bindings c).text) : b = c := by
  have hlength (b : Bindings Expr) : (b.values.map Expr.form).length = b.vars.length :=
    (List.length_map _).trans b.length_values
  rw [Root.text_bindings, Root.text_bindings] at h
  have hform := (Form.Proper.bindings hb.vars (Expr.proper_of_mem hb.values)).eq_of_text
    (Form.Proper.bindings hc.vars (Expr.proper_of_mem hc.values)) h
  obtain ⟨hvars, hvalues⟩ := Form.zipWith_labelled_inj (fun _ _ => Var.text_inj) (hlength b)
    (hlength c) (Form.list_inj hform)
  rw [← b.zip_vars_values, ← c.zip_vars_values, hvars,
    Expr.eq_of_forms hb.values hc.values hvalues]

/-- Readable plans, lists of readable expressions and readable binding lists are determined by their
texts. -/
theorem text_injective_of_readable :
    (∀ o p : Op, (Node.op o).Readable → (Node.op p).Readable → o.text = p.text → o = p) ∧
    (∀ e f : Expr, (Node.expr e).Readable → (Node.expr f).Readable → e.text = f.text → e = f) ∧
    (∀ es fs : List Expr, (∀ e ∈ es, (Node.expr e).Readable) → (∀ f ∈ fs, (Node.expr f).Readable) →
      (Root.exprs es).text = (Root.exprs fs).text → es = fs) ∧
    (∀ b c : Bindings Expr, b.Readable → c.Readable →
      (Root.bindings b).text = (Root.bindings c).text → b = c) := by
  refine ⟨fun o p ho hp h => ?_, fun e f he hf h => ?_, fun es fs hes hfs h => ?_,
    fun b c hb hc h => hb.eq_of_text hc h⟩
  · exact Node.op.inj (ho.eq_of_text hp rfl h)
  · exact Node.expr.inj (he.eq_of_text hf rfl h)
  · rw [Root.text_exprs, Root.text_exprs] at h
    have hform := (Form.Proper.ofItems (Expr.proper_of_mem hes)).eq_of_text
      (.ofItems (Expr.proper_of_mem hfs)) h
    exact Expr.eq_of_forms hes hfs (Form.list_inj hform)

/-- An extension function that is named like an aggregate prints like one. -/
example : (Expr.function (.call "count") [.var ⟨"x"⟩]).text =
    (Expr.aggregate .count false (some (.var ⟨"x"⟩))).text := by decide +kernel

/-- A node is readable if its frame and its parts are. -/
lemma Node.Readable.of_parts {n : Node} (h : n.frame.Readable)
    (hparts : ∀ p ∈ n.parts, p.Readable) : n.Readable := by
  intro m hm
  cases hm with
  | here => exact h
  | part hp hm => exact hparts _ hp m hm

/-- A variable is readable if its name is a word. -/
lemma Expr.readable_var {v : Var} (h : Word v.name) : (Node.expr (var v)).Readable :=
  .of_parts h (List.forall_mem_nil _)

/-- A count over a table is readable if the names in it are words. -/
lemma Op.readable_countedBy {v : Var} {table : String} (hv : Word v.name) (htable : Word table) :
    (Node.op (countedBy v table)).Readable := by
  refine .of_parts ?_ ?_
  · exact List.forall_mem_cons.2 ⟨hv, List.forall_mem_singleton.2 (by decide)⟩
  · refine List.forall_mem_cons.2 ⟨Expr.readable_var hv, List.forall_mem_cons.2 ⟨?_, ?_⟩⟩
    · exact .of_parts trivial (List.forall_mem_nil _)
    · refine List.forall_mem_singleton.2 (.of_parts ⟨htable, ?_⟩ (List.forall_mem_nil _))
      exact fun _ => nofun

/-- A count over a table, a comparison, a list of two variables and a binding are read back. -/
theorem text_injective_of_readable_countedBy :
    ((Op.countedBy ⟨"k"⟩ "T").text = "(group ((?k ?k)) ((?count (count *))) (scan T))" ∧
      Op.countedBy ⟨"k"⟩ "T" = .group ⟨[(⟨"k"⟩, .var ⟨"k"⟩)]⟩
        ⟨[(⟨"count"⟩, .aggregate .count false none)]⟩ (.scan "T" none)) ∧
    Expr.function .equals (List.replicate 2 (.var ⟨"k"⟩)) =
      .function .equals [.var ⟨"k"⟩, .var ⟨"k"⟩] ∧
    List.replicate 2 (Expr.var ⟨"k"⟩) = [.var ⟨"k"⟩, .var ⟨"k"⟩] ∧
    (⟨[⟨"k"⟩].zip [.var ⟨"k"⟩]⟩ : Bindings Expr) = ⟨[(⟨"k"⟩, .var ⟨"k"⟩)]⟩ := by
  have hplan := Op.readable_countedBy (v := ⟨"k"⟩) (by decide) (by decide : Word "T")
  have hk : (Node.expr (.var ⟨"k"⟩)).Readable := Expr.readable_var (by decide)
  have hks : ∀ e ∈ [Expr.var ⟨"k"⟩, .var ⟨"k"⟩], (Node.expr e).Readable :=
    List.forall_mem_cons.2 ⟨hk, List.forall_mem_singleton.2 hk⟩
  have hequals : (Node.expr (.function .equals [.var ⟨"k"⟩, .var ⟨"k"⟩])).Readable := by
    refine .of_parts trivial fun p hp => ?_
    obtain ⟨e, he, rfl⟩ := List.mem_map.1 hp
    exact hks e he
  have hbindings : (⟨[(⟨"k"⟩, .var ⟨"k"⟩)]⟩ : Bindings Expr).Readable :=
    ⟨List.forall_mem_singleton.2 (by decide), List.forall_mem_singleton.2 hk⟩
  obtain ⟨hops, hexprs, hlists, hbinds⟩ := text_injective_of_readable
  exact ⟨⟨by decide +kernel, hops _ _ hplan hplan rfl⟩, hexprs _ _ hequals hequals rfl,
    hlists _ _ hks hks rfl, hbinds _ _ hbindings hbindings rfl⟩

end QueryPlan
