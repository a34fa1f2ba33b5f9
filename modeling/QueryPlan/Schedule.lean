import QueryPlan.Tree.Basic

/-!
# The schedule of a run

A run goes through a tree in steps that wait on a list. Entering a node puts its parts, and after
them the leaving of the node, in front of what was waiting. `drain` performs one step after the
other until none is left; the steps it takes depend on the tree alone, and only the monad can cut
them short.

`work` counts the steps still to come. It goes down by one with each step (`work_follow`), which is
why `drain` ends.
-/

namespace QueryPlan

/-- One step of a run. -/
inductive Step where
  /-- Reach a node at a depth. -/
  | enter (node : Node) (depth : Nat)
  /-- Finish a node, all of whose parts are finished. -/
  | leave (node : Node)

/-- The entering of the parts of a node at a depth, in front of what is waiting. -/
def Node.schedule (n : Node) (depth : Nat) (waiting : List Step) : List Step :=
  n.parts.map (Step.enter · depth) ++ waiting

namespace Step

/-- What is waiting once a step has been performed. -/
def follow : Step → List Step → List Step
  | enter n depth, waiting => n.schedule (depth + 1) (leave n :: waiting)
  | leave _, waiting => waiting

/-- The number of steps that a step leads to, itself included: each node of a tree is entered and
left. -/
def work : Step → Nat
  | enter n _ => 2 * n.size
  | leave _ => 1

end Step

/-- The number of steps still to come. -/
def work (waiting : List Step) : Nat := total (waiting.map Step.work)

/-- The first waiting step adds its own work. -/
theorem work_cons (s : Step) (waiting : List Step) : work (s :: waiting) = s.work + work waiting :=
  rfl

/-- The work of steps one after the other is the sum of their work. -/
theorem work_append (first waiting : List Step) :
    work (first ++ waiting) = work first + work waiting := by
  rw [work, List.map_append, total_append, work, work]

/-- Trees to be entered take two steps for each of their nodes. -/
theorem work_map_enter (ns : List Node) (depth : Nat) :
    work (ns.map (Step.enter · depth)) = 2 * total (ns.map Node.size) := by
  induction ns with
  | nil => rfl
  | cons n ns ih =>
    rw [List.map_cons, work_cons, ih, Step.work, List.map_cons, total_cons, Nat.mul_add]

/-- Each step leaves one step less to come. -/
theorem work_follow (s : Step) (waiting : List Step) :
    work (s.follow waiting) + 1 = work (s :: waiting) := by
  cases s with
  | enter n depth =>
    rw [Step.follow, Node.schedule, work_append, work_map_enter, work_cons, work_cons, Step.work,
      Step.work, n.size_eq]
    omega
  | leave n => rw [work_cons, Step.work, Step.follow, Nat.add_comm]

/-- Perform the waiting steps, and those they lead to, until none is left. -/
def drain {m : Type → Type} [Monad m] (perform : Step → m Unit) : List Step → m Unit
  | [] => pure ()
  | s :: waiting => do
    perform s
    drain perform (s.follow waiting)
termination_by waiting => work waiting
decreasing_by exact Nat.lt_of_succ_le (Nat.le_of_eq (work_follow s waiting))

end QueryPlan
