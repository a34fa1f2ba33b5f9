import QueryPlan.Proofs.PrintedForms
import QueryPlan.Proofs.Subtree

/-!
# Readable plans

A plan is readable if its names are words, its strings have no quotes in them, its extension
functions are named like nothing else, and there are no doubles (`Node.Readable`). Such a plan
prints as a form of tokens (`Node.Readable.proper`).
-/

namespace QueryPlan

/-! ### Words -/

/-- The functions that are no extension functions. -/
def Func.builtIn : List Func :=
  [equals, notEquals, lessThan, greaterThan, lessEquals, greaterEquals, and, or, not, plus, minus,
    multiply, divide, negate, bound, ifThenElse, coalesce]

/-- A function that is not built in is an extension function. -/
lemma Func.mem_builtIn_or (f : Func) : f ∈ builtIn ∨ ∃ name, f = call name := by
  cases f with
  | call name => exact .inr ⟨name, rfl⟩
  | _ => exact .inl (by decide)

/-- The words that begin aggregates and existence tests. -/
def Expr.keywords : List String :=
  ["count", "sum", "min", "max", "avg", "sample", "exists", "notexists"]

/-- An extension function has a name that is a word and means nothing else. -/
def Func.Readable : Func → Prop
  | call name => Word name ∧ name ∉ builtIn.map symbol ∧ name ∉ Expr.keywords
  | _ => True

/-- Names are words, and literals are neither doubles nor strings with a quote. -/
def Frame.Readable : Frame → Prop
  | scan table other => Word table ∧ ∀ name ∈ other, Word name
  | project vars | extend vars => ∀ v ∈ vars, Word v.name
  | group keys aggregates => ∀ v ∈ keys ++ aggregates, Word v.name
  | const (.double _) => False
  | const (.string s) => '"' ∉ s.toList
  | var v => Word v.name
  | function f => f.Readable
  | _ => True

/-- All nodes of a tree are readable. -/
def Node.Readable (n : Node) : Prop := ∀ m : Node, m.Within n → m.frame.Readable

/-- A natural number is written in digits. -/
lemma plain_nat (n : Nat) : ∀ c ∈ n.repr.toList, c.isDigit = true := by
  intro c hc
  rw [Nat.repr_eq_ofList_toDigits, String.toList_ofList] at hc
  exact Nat.isDigit_of_mem_toDigits (b := 10) (by decide) (by decide) hc

/-- An integer is written in digits, perhaps after a minus sign. -/
lemma plain_int (i : Int) : ∀ c ∈ i.repr.toList, c = '-' ∨ c.isDigit = true := by
  intro c hc
  rw [Int.repr_eq_if] at hc
  split at hc
  · exact .inr (plain_nat _ c hc)
  · rw [String.toList_append] at hc
    rcases List.mem_append.1 hc with hsign | hdigit
    · exact .inl (List.mem_singleton.1 hsign)
    · exact .inr (plain_nat _ c hdigit)

/-- A written natural number is a word. -/
lemma Word.nat (n : Nat) : Word n.repr where
  nonempty := Nat.repr_ne_empty
  plain c hc := by
    have hdigit := plain_nat n c hc
    refine ⟨?_, ?_, ?_, ?_⟩ <;> (rintro rfl; revert hdigit; decide)

/-- A written integer is a word. -/
lemma Word.int (i : Int) : Word i.repr where
  nonempty := by
    rw [Int.repr_eq_if]
    split
    · exact Nat.repr_ne_empty
    · intro h
      exact Nat.repr_ne_empty (String.append_eq_empty_iff.1 h).2
  plain c hc := by
    have hchar := plain_int i c hc
    refine ⟨?_, ?_, ?_, ?_⟩ <;> (rintro rfl; revert hchar; decide)

/-- A variable prints as a word if its name is one. -/
lemma Word.var {v : Var} (h : Word v.name) : Word v.text where
  nonempty h := by
    have h := congrArg String.toList h
    simp [Var.text] at h
  plain c hc := by
    rw [Var.text, String.toList_append] at hc
    rcases List.mem_append.1 hc with hmark | hname
    · cases List.mem_singleton.1 hmark
      decide
    · exact h.plain c hname

/-- A bound prints as a word, also where there is none. -/
lemma Word.bound (b : Option UInt64) : Word (boundText b) := by
  cases b with
  | none => decide
  | some n => exact Word.nat n.toNat

/-- The symbol of a readable function is a word. -/
lemma Func.Readable.word {f : Func} (h : f.Readable) : Word f.symbol := by
  rcases f.mem_builtIn_or with hf | ⟨name, rfl⟩
  · exact (by decide : ∀ f ∈ builtIn, Word f.symbol) f hf
  · exact h.1

/-- A readable literal prints as a token. -/
lemma Token.value {v : Value} (h : (Frame.const v).Readable) : Token v.text := by
  cases v with
  | null => exact .word (by decide)
  | int i => exact .word (Word.int i.toInt)
  | double x => exact h.elim
  | string s => exact .quotation h
  | bool b => cases b <;> exact .word (by decide)

/-! ### Forms of tokens -/

namespace Form

/-- A word is a form of tokens. -/
lemma Proper.ofWord {s : String} (h : Word s) : (atom s).Proper := .ofToken (.word h)

/-- A list that begins with a word. -/
lemma Proper.ofWords {s : String} {items : List Form} (h : Word s)
    (hitems : ∀ f ∈ items, f.Proper) : (list (atom s :: items)).Proper :=
  .ofItems (List.forall_mem_cons.2 ⟨.ofWord h, hitems⟩)

/-- A word and a form of tokens make a form of tokens. -/
lemma Proper.labelled {s : String} {f : Form} (h : Word s) (hf : f.Proper) :
    (labelled s f).Proper :=
  .ofWords h (List.forall_mem_singleton.2 hf)

/-- Labels that are words, with proper forms. -/
lemma Proper.zipWith_labelled {α : Type} {label : α → String} {as : List α} {fs : List Form}
    (h : ∀ a ∈ as, Word (label a)) (hfs : ∀ f ∈ fs, f.Proper) :
    (list (as.zipWith (fun a f => Form.labelled (label a) f) fs)).Proper := by
  refine .ofItems fun g hg => ?_
  obtain ⟨i, hi, rfl⟩ := List.getElem_of_mem hg
  rw [List.getElem_zipWith]
  exact .labelled (h _ (List.getElem_mem _)) (hfs _ (List.getElem_mem _))

/-- Variables that are words and forms of tokens make a form of tokens. -/
lemma Proper.bindings {vars : List Var} {values : List Form} (h : ∀ v ∈ vars, Word v.name)
    (hvalues : ∀ f ∈ values, f.Proper) : (bindings vars values).Proper :=
  .zipWith_labelled (fun v hv => (h v hv).var) hvalues

end Form

open Form in
/-- A readable frame makes forms of tokens from forms of tokens. -/
lemma Frame.Readable.proper {f : Frame} (h : f.Readable) {ops exprs : List Form}
    (hops : ∀ g ∈ ops, g.Proper) (hexprs : ∀ g ∈ exprs, g.Proper) : (f.form ops exprs).Proper := by
  cases f with
  | scan table other =>
    obtain ⟨htable, hother⟩ := h
    cases other with
    | none => exact .ofWords (by decide) (by simpa using .ofWord htable)
    | some name =>
      have hname := hother name rfl
      have has : Word "as" := by decide
      exact .ofWords (by decide) (by simpa using ⟨.ofWord htable, .ofWord has, .ofWord hname⟩)
  | empty => exact .ofWords (by decide) (List.forall_mem_nil _)
  | filter => exact .ofWords (by decide) (List.forall_mem_cons.2 ⟨.ofItems hexprs, hops⟩)
  | project vars =>
    have hvars : ∀ g ∈ vars.map fun v => atom v.text, g.Proper := by
      intro g hg
      obtain ⟨v, hv, rfl⟩ := List.mem_map.1 hg
      exact .ofWord (h v hv).var
    exact .ofWords (by decide) (List.forall_mem_cons.2 ⟨.ofItems hvars, hops⟩)
  | distinct | union | minus | sequence | disjunction => exact .ofWords (by decide) hops
  | slice offset limit =>
    have hbound (b : Option UInt64) : (atom (boundText b)).Proper := .ofWord (Word.bound b)
    exact .ofWords (by decide) (List.forall_mem_cons.2 ⟨hbound offset,
      List.forall_mem_cons.2 ⟨hbound limit, hops⟩⟩)
  | order directions =>
    have hword (d : Direction) : Word d.word := by cases d <;> decide
    exact .ofWords (by decide) (List.forall_mem_cons.2
      ⟨.zipWith_labelled (fun d _ => hword d) hexprs, hops⟩)
  | extend vars => exact .ofWords (by decide) (List.forall_mem_cons.2 ⟨.bindings h hexprs, hops⟩)
  | group keys aggregates =>
    obtain ⟨hkeys, haggregates⟩ := List.forall_mem_append.1 h
    exact .ofWords (by decide) (List.forall_mem_cons.2
      ⟨.bindings hkeys fun g hg => hexprs g (List.mem_of_mem_take hg), List.forall_mem_cons.2
        ⟨.bindings haggregates fun g hg => hexprs g (List.mem_of_mem_drop hg), hops⟩⟩)
  | join method =>
    have hmethod : Word method.word := by cases method <;> decide
    exact .ofWords hmethod hops
  | leftJoin =>
    refine .ofWords (by decide) (List.forall_mem_append.2 ⟨hops, ?_⟩)
    cases exprs with
    | nil => exact List.forall_mem_nil _
    | cons => exact List.forall_mem_singleton.2 (.ofItems hexprs)
  | const value => exact .ofToken (Token.value h)
  | var v => exact .ofWord h.var
  | function func => exact .ofWords h.word hexprs
  | aggregate func once =>
    have hname : Word func.name := by cases func <;> decide
    have hword {s : String} (hs : Word s) : ∀ g ∈ [atom s], g.Proper :=
      List.forall_mem_singleton.2 (.ofWord hs)
    refine .ofWords hname (List.forall_mem_append.2 ⟨?_, ?_⟩)
    · cases once with
      | true => exact hword (by decide)
      | false => exact List.forall_mem_nil _
    · cases exprs with
      | nil => exact hword (by decide)
      | cons => exact hexprs
  | existence negated =>
    have hword : Word (if negated then "notexists" else "exists") := by cases negated <;> decide
    exact .ofWords hword hops

/-- The parts of a readable node are readable. -/
lemma Node.Readable.part {n p : Node} (h : n.Readable) (hp : p ∈ n.parts) : p.Readable :=
  fun m hm => h m (.part hp hm)

/-- A readable plan prints as a form of tokens. -/
theorem Node.Readable.proper {n : Node} (h : n.Readable) : n.form.Proper := by
  induction n using inductionOnParts with
  | step n ih =>
    rw [form_eq]
    refine (h n .here).proper ?_ ?_
    · intro g hg
      obtain ⟨o, ho, rfl⟩ := List.mem_map.1 hg
      exact ih _ (mem_ops.1 ho) (h.part (mem_ops.1 ho))
    · intro g hg
      obtain ⟨e, he, rfl⟩ := List.mem_map.1 hg
      exact ih _ (mem_exprs.1 he) (h.part (mem_exprs.1 he))

end QueryPlan
