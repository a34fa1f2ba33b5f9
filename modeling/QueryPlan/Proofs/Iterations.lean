import QueryPlan.Proofs.Begun

/-!
# Iterations

`Runs` follows the loop of a run from iteration to iteration, without a promise that it ends. It
ends because each iteration leaves less work (`Iterates.work_lt`): the number of iterations is the
work at the start, unless a step fails before (`Runs.length_le`, `Runs.length_eq`).

The iterations of a loop that begins with a tree are the first turns of the tree, which are known
beforehand (`Node.runs_turnsBegun`). So no place is entered or left twice, and nothing that a
callback returns has an influence on what is entered (`loops_end`).
-/

namespace QueryPlan

variable {σ ρ τ : Type}

/-! ### The iterations of a loop -/

/-- With some steps waiting the loop performs a step in each iteration and ends with a result, when
no step waits any more or when one fails. -/
inductive Runs (perform : Step → RunM σ τ Unit) :
    List Step → Session σ τ → List Step → Except RunError Unit × Session σ τ → Prop where
  | done {s} :
    Runs perform [] s [] (.ok (), s)
  | failed {step : Step} {waiting s e t} :
    (perform step).run s = (.error e, t) →
    Runs perform (step :: waiting) s [step] (.error e, t)
  | next {step : Step} {waiting steps s t result} :
    (perform step).run s = (.ok (), t) →
    Runs perform (step.follow waiting) t steps result →
    Runs perform (step :: waiting) s (step :: steps) result

variable {perform : Step → RunM σ τ Unit} {waiting steps : List Step} {s : Session σ τ}
  {result : Except RunError Unit × Session σ τ}

/-- An iteration leaves less work than there was. -/
lemma Iterates.work_lt {L M : Loop σ τ} (h : Iterates perform L M) :
    work M.waiting < work L.waiting := by
  cases h with
  | @step s waiting =>
    exact Nat.lt_of_succ_le (Nat.le_of_eq (work_follow s waiting))

namespace Runs

/-- There are no more iterations than there is work. -/
lemma length_le (h : Runs perform waiting s steps result) : steps.length ≤ work waiting := by
  induction h with
  | done => exact Nat.le_refl 0
  | @failed step waiting =>
    rw [← work_follow]
    exact Nat.le_add_left 1 _
  | @next step waiting _ _ _ _ _ _ ih =>
    rw [← work_follow]
    exact Nat.succ_le_succ ih

/-- If no step fails, all work is done. -/
lemma length_eq (h : Runs perform waiting s steps result) (hok : result.1 = .ok ()) :
    steps.length = work waiting := by
  induction h with
  | done => rfl
  | failed => cases hok
  | @next step waiting _ _ _ _ _ _ ih =>
    rw [← work_follow, List.length_cons, ih hok]

/-- The iterations follow from what is waiting and the session. -/
lemma unique {steps' : List Step} {result' : Except RunError Unit × Session σ τ}
    (h : Runs perform waiting s steps result) (h' : Runs perform waiting s steps' result') :
    steps = steps' ∧ result = result' := by
  induction h generalizing steps' result' with
  | done =>
    cases h'
    exact ⟨rfl, rfl⟩
  | failed hrun =>
    cases h' with
    | failed hrun' =>
      cases hrun.symm.trans hrun'
      exact ⟨rfl, rfl⟩
    | next hrun' => cases hrun.symm.trans hrun'
  | next hrun _ ih =>
    cases h' with
    | failed hrun' => cases hrun.symm.trans hrun'
    | next hrun' h' =>
      cases hrun.symm.trans hrun'
      obtain ⟨rfl, rfl⟩ := ih h'
      exact ⟨rfl, rfl⟩

end Runs

/-- The loop ends, and what comes out is the run of `drain`. -/
theorem runs_drain (perform : Step → RunM σ τ Unit) (waiting : List Step) (s : Session σ τ) :
    Runs perform waiting s (RunM.begun perform (upcoming waiting) s)
      ((drain perform waiting).run s) := by
  induction waiting using drain.induct generalizing s with
  | case1 =>
    rw [drain, upcoming_nil]
    exact .done
  | case2 step waiting ih =>
    rw [drain, upcoming_cons]
    rcases hrun : (perform step).run s with ⟨e | u, t⟩
    · rw [RunM.begun_of_error hrun, RunM.bind_of_error hrun]
      exact .failed hrun
    · rw [RunM.begun_of_ok hrun, RunM.bind_of_ok hrun]
      exact .next hrun (ih t)

/-! ### Loops over trees -/

namespace Node

variable {n m : Node} {π : Place} {turns : List (Place × Turn)}

/-- A tree to be entered takes two steps for each of its nodes. -/
lemma work_enter (n : Node) (depth : Nat) : work [.enter n depth] = 2 * n.size := by
  rw [work_cons]
  rfl

/-- Each node of a tree is entered and left at its place. -/
lemma mem_turns (h : n.at? π = some m) : (π, .enter m) ∈ n.turns ∧ (π, .leave m) ∈ n.turns :=
  ⟨mem_tour.2 ⟨m, h, .inl (.head _)⟩, mem_tour.2 ⟨m, h, .inr (.head _)⟩⟩

/-- The turns that a run begins are the first ones of the tree. -/
lemma turnsBegun_prefix_turns (perform : Step → RunM σ τ Unit) (n : Node) (s : Session σ τ) :
    n.turnsBegun perform s <+: n.turns :=
  RunM.begun_prefix _ n.turns s

/-- The iterations of a loop over a tree are turns of the tree. -/
lemma runs_turnsBegun (perform : Step → RunM σ τ Unit) (n : Node) (s : Session σ τ) :
    Runs perform [.enter n 1] s ((n.turnsBegun perform s).map (Turn.step 1))
      ((drain perform [.enter n 1]).run s) := by
  rw [← begun_steps]
  have hruns := runs_drain perform [.enter n 1] s
  rwa [upcoming, List.flatMap_singleton, Step.steps] at hruns

/-- A loop over a tree that ends with a result takes turns, one in each iteration. -/
structure LoopEnds (perform : Step → RunM σ τ Unit) (n : Node) (s : Session σ τ)
    (turns : List (Place × Turn)) (result : Except RunError Unit × Session σ τ) : Prop where
  /-- Each iteration leaves less work. -/
  decreases : ∀ L M, Iterates perform L M → work M.waiting < work L.waiting
  /-- These are the iterations that there are. -/
  runs_iff : ∀ steps result', Runs perform [.enter n 1] s steps result' ↔
    steps = turns.map (Turn.step 1) ∧ result' = result
  /-- They are the first ones in an order that the tree alone determines. -/
  initial : turns <+: n.turns
  /-- What is entered or left is the node of the tree at the place. -/
  at_place : ∀ π m, (π, .enter m) ∈ turns ∨ (π, .leave m) ∈ turns → n.at? π = some m
  /-- No place is entered twice, and none is left twice. -/
  nodup : turns.Nodup
  length_le : turns.length ≤ 2 * n.size
  /-- A loop that succeeds enters and leaves every node. -/
  whole : result.1 = .ok () → turns.length = 2 * n.size ∧
    ∀ π m, n.at? π = some m → (π, .enter m) ∈ turns ∧ (π, .leave m) ∈ turns

/-- The loop over a tree takes the turns that it begins, and then ends. -/
lemma loopEnds (perform : Step → RunM σ τ Unit) (n : Node) (s : Session σ τ) :
    n.LoopEnds perform s (n.turnsBegun perform s) ((drain perform [.enter n 1]).run s) where
  decreases _ _ h := h.work_lt
  runs_iff steps result' := by
    constructor
    · intro h
      exact h.unique (n.runs_turnsBegun perform s)
    · rintro ⟨rfl, rfl⟩
      exact n.runs_turnsBegun perform s
  initial := turnsBegun_prefix_turns perform n s
  at_place π m h := by
    have hsub := (turnsBegun_prefix_turns perform n s).subset
    exact at?_of_mem_turns (h.imp (fun h => hsub h) fun h => hsub h)
  nodup := n.nodup_turns.sublist (turnsBegun_prefix_turns perform n s).sublist
  length_le := by
    have hlength := (n.runs_turnsBegun perform s).length_le
    rwa [List.length_map, work_enter] at hlength
  whole hok := by
    have hlength := (n.runs_turnsBegun perform s).length_eq hok
    rw [List.length_map, work_enter] at hlength
    refine ⟨hlength, fun π m hm => ?_⟩
    rw [turnsBegun_of_ok (Prod.ext hok rfl)]
    exact mem_turns hm

end Node

/-- The loops of walks and of runs that replace nodes end, whatever the limit is and whatever the
callbacks do: they take turns of the tree that they begin with and no others, so nothing that a
callback returns is ever entered. -/
theorem loops_end (config : Config) (n : Node) (v : Visitors σ) (r : Replacers ρ)
    (s : Session σ Counters) (t : Session ρ Rebuilt) :
    (∃ turns, n.LoopEnds (v.perform config) s turns ((v.walkTree config n).run s)) ∧
      ∃ turns, n.LoopEnds (r.perform config) t turns
        ((drain (r.perform config) [.enter n 1]).run t) :=
  ⟨⟨_, n.loopEnds (v.perform config) s⟩, _, n.loopEnds (r.perform config) t⟩

/-- A union of one scan with itself has three places, and so six iterations. -/
theorem loops_end_of_both_scans :
    let n := Node.op (.union (.scan "T" none) (.scan "T" none))
    ((Visitors.counting.walkTree {} n).run ⟨0, {}, #[]⟩).1 = .ok () ∧ n.size = 3 ∧
      ∃ turns, turns.length = 6 ∧
        n.LoopEnds (Visitors.counting.perform {}) ⟨0, {}, #[]⟩ turns
          ((Visitors.counting.walkTree {} n).run ⟨0, {}, #[]⟩) := by
  intro n
  have hok : ((Visitors.counting.walkTree {} n).run ⟨0, {}, #[]⟩).1 = .ok () := by
    rw [Visitors.walkTree, drain_enter, ← Visitors.visit_eq_forM]
    rfl
  have hsize : n.size = 3 := by decide +kernel
  obtain ⟨⟨turns, hends⟩, -⟩ :=
    loops_end {} n Visitors.counting Replacers.counting ⟨0, {}, #[]⟩ ⟨0, {}, #[]⟩
  refine ⟨hok, hsize, turns, ?_, hends⟩
  rw [(hends.whole hok).1, hsize]

end QueryPlan
