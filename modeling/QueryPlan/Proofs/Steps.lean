import Mathlib.Logic.Relation
import QueryPlan.Proofs.Run
import QueryPlan.Schedule

/-!
# The steps of a tree

`Node.steps` lists, from the tree alone, all steps that entering its top node leads to: each node is
entered, its parts follow, and it is left. `drain_eq_forM` says that the loop performs exactly the
steps that its waiting steps lead to (`upcoming`), in order.

`Reaches` relates the states of the loop, what is waiting together with the session, as iterations
succeed. `drain_ok` says that a run of the loop that succeeds has reached the state with nothing
waiting.
-/

namespace QueryPlan

/-- The steps of a tree whose top node stands at a depth. -/
def Node.steps (n : Node) (depth : Nat) : List Step :=
  .enter n depth :: n.parts.attach.flatMap (fun ⟨p, _⟩ => p.steps (depth + 1)) ++ [.leave n]
termination_by sizeOf n
decreasing_by exact sizeOf_lt_of_mem_parts ‹_›

/-- A node is entered, then come the steps of its parts, then it is left. -/
lemma Node.steps_eq (n : Node) (depth : Nat) :
    n.steps depth = .enter n depth :: n.parts.flatMap (·.steps (depth + 1)) ++ [.leave n] := by
  rw [steps]
  congr 2
  conv_rhs => rw [← List.attach_map_subtype_val n.parts, List.flatMap_map]

/-- A step and all steps it leads to. -/
def Step.steps : Step → List Step
  | enter n depth => n.steps depth
  | leave n => [leave n]

/-- The steps that the waiting ones lead to, themselves included. -/
def upcoming (waiting : List Step) : List Step := waiting.flatMap Step.steps

/-- No waiting step leads to no step. -/
lemma upcoming_nil : upcoming [] = [] :=
  rfl

/-- The next step comes first, the others wait after it has been performed. -/
lemma upcoming_cons (s : Step) (waiting : List Step) :
    upcoming (s :: waiting) = s :: upcoming (s.follow waiting) := by
  cases s with
  | enter n depth =>
    simp only [upcoming, List.flatMap_cons, Step.steps, n.steps_eq, Step.follow, Node.schedule,
      List.flatMap_append, List.flatMap_map, List.cons_append, List.append_assoc, List.nil_append]
  | leave n => rfl

/-- The loop performs the upcoming steps in order. -/
theorem drain_eq_forM {m : Type → Type} [Monad m] [LawfulMonad m] (perform : Step → m Unit)
    (waiting : List Step) : drain perform waiting = forM (upcoming waiting) perform := by
  induction waiting using drain.induct with
  | case1 => rw [drain, upcoming_nil, List.forM_nil]
  | case2 s waiting ih => rw [drain, upcoming_cons, List.forM_cons, ih]

/-- Entering a tree makes the loop perform the steps of the tree. -/
lemma drain_enter {m : Type → Type} [Monad m] [LawfulMonad m] (perform : Step → m Unit)
    (n : Node) (depth : Nat) : drain perform [.enter n depth] = forM (n.steps depth) perform := by
  rw [drain_eq_forM, upcoming, List.flatMap_singleton, Step.steps]

variable {σ τ : Type}

/-- A state of the loop. -/
structure Loop (σ τ : Type) where
  waiting : List Step
  session : Session σ τ

/-- One iteration of the loop whose step succeeds. -/
inductive Iterates (perform : Step → RunM σ τ Unit) : Loop σ τ → Loop σ τ → Prop where
  | step {s waiting t u} :
    (perform s).run t = (.ok (), u) →
    Iterates perform ⟨s :: waiting, t⟩ ⟨s.follow waiting, u⟩

/-- The states that the loop reaches from a state. -/
abbrev Reaches (perform : Step → RunM σ τ Unit) : Loop σ τ → Loop σ τ → Prop :=
  Relation.ReflTransGen (Iterates perform)

/-- A loop that succeeds has come to where nothing waits. -/
lemma drain_ok {perform : Step → RunM σ τ Unit} {waiting t u}
    (h : (drain perform waiting).run t = (.ok (), u)) :
    Reaches perform ⟨waiting, t⟩ ⟨[], u⟩ := by
  induction waiting using drain.induct generalizing t with
  | case1 =>
    rw [drain] at h
    cases h
    exact .refl
  | case2 s waiting ih =>
    rw [drain] at h
    obtain ⟨_, v, hs, hrest⟩ := RunM.ok_of_bind h
    exact .head (.step hs) (ih hrest)

end QueryPlan
