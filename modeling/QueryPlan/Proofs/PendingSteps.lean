import QueryPlan.Proofs.Places
import QueryPlan.Proofs.Steps

/-!
# Pending steps on an array

The steps that wait can be kept on an array that grows and shrinks at its end, where the next step
stands. The parts of a node are then put on it in an order that has to be turned round: for an
operator they are put on top in visiting order, and what lies above the mark at which this began is
reversed; for an expression they are put on top last part first.

Both ways the array stands for the waiting steps that `Node.schedule` gives
(`Pending.waiting_pushParts`), so a loop that uses it does the same as `drain`
(`Pending.drain_eq`). `Pending.pushParts_exact` says what they put on the array without a reference
to a list of parts, in terms of what is held below a node.
-/

namespace QueryPlan

/-- Steps that wait, the next one at the end. -/
abbrev Pending := Array Step

namespace Pending

/-- The steps in the order in which they will be taken off. -/
def waiting (pending : Pending) : List Step := pending.toList.reverse

/-- Take the next step off. -/
def pop? (pending : Pending) : Option (Step × Pending) := pending.back?.map (·, pending.pop)

/-- Put the entering of nodes at a depth on top, one after the other. -/
def pushAll (pending : Pending) (depth : Nat) (ns : List Node) : Pending :=
  ns.foldl (fun pending n => pending.push (.enter n depth)) pending

/-- Turn round what lies above a mark. -/
def reverseAbove (pending : Pending) (mark : Nat) : Pending :=
  pending.extract 0 mark ++ (pending.extract mark).reverse

/-- Put the parts of an operator on top and turn them round. -/
def pushOpParts (pending : Pending) (depth : Nat) (o : Op) : Pending :=
  (pending.pushAll depth o.parts).reverseAbove pending.size

/-- Put the parts of an expression on top, the last one first. -/
def pushExprParts (pending : Pending) (depth : Nat) (e : Expr) : Pending :=
  pending.pushAll depth e.parts.reverse

/-- Put the parts of a node on top. -/
def pushParts (pending : Pending) (depth : Nat) : Node → Pending
  | .op o => pending.pushOpParts depth o
  | .expr e => pending.pushExprParts depth e

/-- What is pending once a step that has been taken off is performed. -/
def follow (pending : Pending) : Step → Pending
  | .enter n depth => pushParts (pending.push (.leave n)) (depth + 1) n
  | .leave _ => pending

variable {pending rest : Pending} {s : Step} {steps : List Step}

/-! ### One step and many -/

/-- The step that is taken off is the one that was put on last. -/
lemma pop?_eq_some_iff : pending.pop? = some (s, rest) ↔ pending = rest.push s := by
  constructor
  · intro h
    obtain ⟨s', hs, heq⟩ := Option.map_eq_some_iff.1 h
    obtain ⟨below, rfl⟩ := Array.back?_eq_some_iff.1 hs
    cases heq
    rw [Array.pop_push]
  · rintro rfl
    simp [pop?]

/-- Only from the empty array nothing can be taken off. -/
lemma pop?_eq_none_iff : pending.pop? = none ↔ pending = #[] := by
  simp [pop?]

/-- The step that is put on last is the next one to be done. -/
lemma waiting_push (pending : Pending) (s : Step) :
    waiting (pending.push s) = s :: pending.waiting := by
  simp [waiting]

/-- Steps are taken off one after the other, and something is left. -/
inductive Pops : Pending → List Step → Pending → Prop where
  | nil {p : Pending} :
    Pops p [] p
  | cons {p q r : Pending} {s : Step} {steps : List Step} :
    p.pop? = some (s, q) →
    Pops q steps r →
    Pops p (s :: steps) r

/-- Steps that stand in reverse at the end are taken off in order. -/
lemma pops_of_toList (h : pending.toList = rest.toList ++ steps.reverse) :
    Pops pending steps rest := by
  induction steps generalizing pending with
  | nil =>
    have hpending : pending = rest := Array.toList_inj.1 (by simpa using h)
    exact hpending ▸ .nil
  | cons s steps ih =>
    have hpending : pending = Array.push (rest ++ steps.reverse.toArray) s :=
      Array.toList_inj.1 (by simpa using h)
    exact .cons (pop?_eq_some_iff.2 hpending) (ih (by simp))

/-! ### What is put on top -/

/-- The nodes are put on in the order in which they are given. -/
lemma toList_pushAll (pending : Pending) (depth : Nat) (ns : List Node) :
    (pending.pushAll depth ns).toList = pending.toList ++ ns.map (.enter · depth) := by
  induction ns generalizing pending with
  | nil => simp [pushAll]
  | cons n ns ih =>
    rw [pushAll, List.foldl_cons, ← pushAll, ih]
    simp

/-- What lies above a mark is turned round, and the rest stays. -/
lemma toList_reverseAbove {top : List Step} (h : pending.toList = rest.toList ++ top) :
    (pending.reverseAbove rest.size).toList = rest.toList ++ top.reverse := by
  have hsize : pending.size = rest.size + top.length := by
    simpa using congrArg List.length h
  simp [reverseAbove, h, hsize]

/-- The parts come on top of what was there, the first one topmost. -/
lemma toList_pushParts (pending : Pending) (depth : Nat) (n : Node) :
    (pending.pushParts depth n).toList =
      pending.toList ++ (n.parts.map (.enter · depth)).reverse := by
  cases n with
  | op o => exact toList_reverseAbove (pending.toList_pushAll depth o.parts)
  | expr e =>
    rw [pushParts, pushExprParts, toList_pushAll, List.map_reverse]
    rfl

/-- On the array and on the list the same steps wait. -/
lemma waiting_pushParts (pending : Pending) (depth : Nat) (n : Node) :
    (pending.pushParts depth n).waiting = n.schedule depth pending.waiting := by
  rw [waiting, toList_pushParts, List.reverse_append, List.reverse_reverse]
  rfl

/-- What follows a step on the array is what follows it on the list. -/
lemma waiting_follow (pending : Pending) (s : Step) :
    (pending.follow s).waiting = s.follow pending.waiting := by
  cases s with
  | enter n depth => rw [follow, waiting_pushParts, waiting_push, Step.follow]
  | leave n => rfl

/-! ### The loop -/

/-- An iteration leaves less work. -/
lemma work_follow_lt (h : pending.pop? = some (s, rest)) :
    work (rest.follow s).waiting < work pending.waiting := by
  rw [pop?_eq_some_iff.1 h, waiting_push, waiting_follow]
  exact Nat.lt_of_succ_le (Nat.le_of_eq (work_follow s rest.waiting))

/-- Perform the pending steps, and those they lead to, until none is left. -/
def drain {m : Type → Type} [Monad m] (perform : Step → m Unit) (pending : Pending) : m Unit :=
  match _h : pending.pop? with
  | none => pure ()
  | some (s, rest) => do
    perform s
    drain perform (rest.follow s)
termination_by work pending.waiting
decreasing_by exact work_follow_lt ‹_›

/-- The loop over an array does what the one over the list of the waiting steps does. -/
theorem drain_eq {m : Type → Type} [Monad m] (perform : Step → m Unit) (pending : Pending) :
    pending.drain perform = QueryPlan.drain perform pending.waiting := by
  induction pending using drain.induct with
  | case1 pending hnone =>
    have hwaiting : pending.waiting = [] := by
      rw [pop?_eq_none_iff.1 hnone]
      rfl
    rw [drain, hnone, hwaiting, QueryPlan.drain]
  | case2 pending s rest hsome ih =>
    have hwaiting : pending.waiting = s :: rest.waiting := by
      rw [pop?_eq_some_iff.1 hsome, waiting_push]
    rw [hwaiting, QueryPlan.drain, ← waiting_follow, ← ih, drain, hsome]

/-! ### What stands below a node -/

/-- Unary operators have their expressions before their input. -/
lemma parts_of_unary {o : Op} (h : o.shape = .unary) :
    o.parts = o.exprs.map .expr ++ o.children.map .op := by
  have haccessors : (Node.op o).accessors = [.exprs, .children] := by
    cases o with
    | leftJoin => cases h
    | _ => rfl
  have hparts := (Node.op o).flatMap_access
  rw [haccessors, List.flatMap_cons, List.flatMap_singleton] at hparts
  exact hparts.symm

/-- From one array to another the entering of some nodes at a depth has been put on top. -/
structure Puts (depth : Nat) (ns : List Node) (old new : Pending) : Prop where
  /-- What was there stays at its positions. -/
  kept : ∀ i < old.size, new[i]? = old[i]?
  /-- Taken off, the entering of the nodes comes in their order and leaves what was there. -/
  popped : new.Pops (ns.map (Step.enter · depth)) old

/-- What is put on for a node are its parts, the first one on top. -/
lemma puts_pushParts (pending : Pending) (depth : Nat) (n : Node) :
    Puts depth n.parts pending (pending.pushParts depth n) where
  kept i hi := by
    rw [← Array.getElem?_toList, toList_pushParts, List.getElem?_append_left (by simpa using hi),
      Array.getElem?_toList]
  popped := pops_of_toList (pending.toList_pushParts depth n)

/-- Scheduling puts on top the entering of just what stands below a node and stands for the schedule
of a run. Taken off again, it gives the operators that an operator holds and the expressions that it
owns, each in their order: the expressions before the input of a unary operator, and after both
inputs of a left join. From an expression it gives the arguments of a function, the argument of an
aggregate if there is one, or the operator of an existence test. -/
theorem pushParts_exact (pending : Pending) (depth : Nat) (o : Op) (e : Expr) :
    (∃ ns, Puts depth ns pending (pending.pushParts depth (.op o)) ∧
      ns.filterMap Node.op? = o.children ∧ ns.filterMap Node.expr? = o.exprs ∧
      (o.shape = .unary → ns = o.exprs.map .expr ++ o.children.map .op) ∧
      ∀ left right conditions, o = .leftJoin left right conditions →
        ns = o.children.map .op ++ o.exprs.map .expr) ∧
    (∃ ns, Puts depth ns pending (pending.pushParts depth (.expr e)) ∧
      match e with
      | .const _ | .var _ => ns = []
      | .function _ args => ns = args.map .expr
      | .aggregate _ _ arg => ns = arg.toList.map .expr
      | .existence _ o => ns = [.op o]) ∧
    ∀ n, (pending.pushParts depth n).waiting = n.schedule depth pending.waiting := by
  refine ⟨⟨o.parts, pending.puts_pushParts depth (.op o), o.filterMap_op?_parts,
    o.filterMap_expr?_parts, parts_of_unary, ?_⟩,
    ⟨e.parts, pending.puts_pushParts depth (.expr e), ?_⟩, pending.waiting_pushParts depth⟩
  · rintro left right conditions rfl
    rfl
  · rcases e with v | v | ⟨f, args⟩ | ⟨f, d, _ | arg⟩ | ⟨negated, o⟩ <;> rfl

/-- The conditions of a left join come after its inputs, and then what was there. -/
theorem pushParts_exact_leftJoin :
    let left := Op.scan "A" none
    let right := Op.scan "B" none
    let join := Op.leftJoin left right [.var ⟨"a"⟩, .var ⟨"b"⟩]
    let pending : Pending := #[.leave (.op .empty)]
    Puts 1 [.op left, .op right, .expr (.var ⟨"a"⟩), .expr (.var ⟨"b"⟩)] pending
      (pending.pushParts 1 (.op join)) := by
  intro left right join pending
  obtain ⟨⟨ns, hputs, -, -, -, hns⟩, -⟩ := pushParts_exact pending 1 join (.const .null)
  cases hns _ _ _ rfl
  exact hputs

end Pending
end QueryPlan
