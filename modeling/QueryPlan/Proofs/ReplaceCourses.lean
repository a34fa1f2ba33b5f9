import QueryPlan.Proofs.Stacks
import QueryPlan.Proofs.StepCourses

/-!
# The course of a run that replaces nodes

From the states of the loop to whole runs: a run on a tree is its loop, and the result is on the
stacks at the end (`Replacers.tree_eq_within`). So it has the courses of the steps of the tree
(`Replacers.tree_follows`).
-/

namespace QueryPlan

variable {σ τ α β : Type}

/-- The last result of the sort of a node. -/
def Gather.top : Node → Gather Node
  | .op o => return .op (← Gather.op o.name)
  | .expr e => return .expr (← Gather.expr e.name)

/-- A result of the sort that is all there is on the stacks can be taken off. -/
lemma Gather.top_run {n a : Node} (h : a.sort = n.sort) :
    (top n).run (Rebuilt.push {} a) = .ok (a, {}) := by
  cases n <;> cases a
  · rfl
  · exact absurd h.symm Node.sort_op_ne_sort_expr
  · exact absurd h Node.sort_op_ne_sort_expr
  · rfl

namespace Replacers

variable {config : Config} {r : Replacers σ} {n : Node}

/-- Changing the result of a gathering may be done before or after. -/
lemma gather_bind_pure (c : Gather α) (g : α → β) :
    (gather (c >>= fun a => pure (g a)) : RunM σ Rebuilt β) = gather c >>= fun a => pure (g a) := by
  apply RunM.ext
  intro s
  rw [RunM.run_bind_pure]
  rcases hc : c.run s.own with e | ⟨a, own⟩
  · rw [gather_of_error hc]
    apply gather_of_error
    rw [StateT.run_bind, hc]
    rfl
  · rw [gather_of_ok hc]
    apply gather_of_ok
    rw [StateT.run_bind, hc]
    rfl

/-- A run on a tree is its loop with stacks of its own, and then the taking of the result. -/
theorem tree_eq_within (config : Config) (r : Replacers σ) (n : Node) :
    (r.tree config n : RunM σ τ Node) =
      RunM.within {} (drain (r.perform config) [.enter n 1] >>= fun _ => gather (.top n)) := by
  have hwithin {α : Type} (x : RunM σ Rebuilt α) (g : α → Node) :
      (RunM.within {} x >>= fun a => pure (g a) : RunM σ τ Node) =
        RunM.within {} (x >>= fun a => pure (g a)) := by
    apply RunM.ext
    intro s
    rw [RunM.run_bind_pure, RunM.run_within, RunM.run_within, RunM.run_bind_pure]
  cases n with
  | op o =>
    refine (hwithin _ Node.op).trans ?_
    rw [bind_assoc, ← gather_bind_pure]
    rfl
  | expr e =>
    refine (hwithin _ Node.expr).trans ?_
    rw [bind_assoc, ← gather_bind_pure]
    rfl

/-- Taking a result off the stacks stops the run if there is none. -/
lemma gather_follows (c : Gather α) (t : Session (Recorded σ) Rebuilt) :
    ∃ stop, (gather c : RunM (Recorded σ) Rebuilt α).Follows t (.stopping stop) ∧
      ∀ a built, c.run t.own = .ok (a, built) → stop = none := by
  rcases hrun : c.run t.own with e | ⟨a, built⟩
  · refine ⟨some e, .of_error (gather_of_error hrun) rfl, fun a built h => ?_⟩
    cases h
  · exact ⟨none, .of_ok (gather_of_ok hrun) rfl, fun _ _ _ => rfl⟩

/-- The run on a tree has the courses of the steps of the tree, and if no binding list of the tree
repeats a variable, the result can be taken off the stacks at the end. -/
theorem tree_follows {R : Step → Course → Prop} (htotal : ∀ s, ∃ c, R s c)
    {s : Session (Recorded σ) τ}
    (hstep : ∀ step rest t,
      Reaches (r.perform config) ⟨[.enter n 1], { s.forget with own := {} }⟩ ⟨step :: rest, t⟩ →
      R step (r.course config t.own step)) :
    ∃ d stop, Courses R (n.steps 1) d ∧ (n.Distinct → stop = none) ∧
      (r.recorded.tree config n : RunM (Recorded σ) τ Node).Follows s
        (d.andThen (.stopping stop)) := by
  have hfollows (step rest) (t : Session (Recorded σ) Rebuilt)
      (ht : Reaches (r.recorded.perform config) ⟨[.enter n 1], { s with own := {} }⟩
        ⟨step :: rest, t⟩) :
      ∃ c, R step c ∧ (r.recorded.perform config step).Follows t c :=
    ⟨_, hstep step rest t.forget (reaches_forget (r.perform_recorded config) ht),
      r.perform_follows config step t⟩
  obtain ⟨d, hd, hdrain⟩ := drain_follows htotal hfollows
  rw [upcoming, List.flatMap_singleton, Step.steps] at hd
  rw [tree_eq_within]
  rcases hrun : (drain (r.recorded.perform config) [.enter n 1]).run { s with own := {} } with
    ⟨e | _, t⟩
  · exact ⟨d, none, hd, fun _ => rfl, .within (hdrain.bind_of_error hrun _)⟩
  · obtain ⟨stop, hfollows, hstop⟩ := gather_follows (.top n) t
    refine ⟨d, stop, hd, fun hn => ?_, .within (hdrain.bind fun _ _ h => ?_)⟩
    · have hend := stacked_of_reaches hn rfl (drain_ok hrun)
      obtain ⟨a, -, hsort, hown⟩ := hend.result rfl
      exact hstop a {} (hown ▸ Gather.top_run hsort)
    · cases hrun.symm.trans h
      exact hfollows

end Replacers

end QueryPlan
