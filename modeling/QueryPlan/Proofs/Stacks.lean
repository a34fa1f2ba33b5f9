import QueryPlan.Proofs.Rebuild
import QueryPlan.Proofs.Steps

/-!
# The stacks of results

While nodes are replaced, results wait on two stacks for the node above them. `Replacers.Stacked`
relates the steps that are waiting to what is on the stacks: under the node that is entered or left
lie the results for the finished parts of the nodes around it, one result for each part, and nothing
else. `Replacers.stacked_step` shows that each step preserves this, `Replacers.stacked_of_reaches`
that every state of a run satisfies it.

A result is not only of the right sort. It is what leaving its node gave, over such results for the
parts of that node (`Replacers.Result`).
-/

namespace QueryPlan.Replacers

variable {σ : Type}

/-- The node `a` stands in the place of a node: leaving that node gave it. -/
inductive Result (r : Replacers σ) : Node → Node → Prop where
  | finish {n results a} {s t : Session σ Rebuilt} :
    List.Forall₂ (Result r) n.parts results →
    (r.finish n results).run s = (.ok a, t) →
    Result r n a

/-- With `waiting` still to come and `below` on the stacks, the next result is one for the node:
some parts of the nodes around it are finished, the others wait. -/
inductive Awaits (r : Replacers σ) (root : Node) : List Step → Rebuilt → Node → Prop where
  | root :
    Awaits r root [] {} root
  | part {waiting below n finished p rest results depth} :
    Awaits r root waiting below n →
    n.defect? = none →
    n.parts = finished ++ p :: rest →
    List.Forall₂ r.Result finished results →
    Awaits r root (rest.map (.enter · depth) ++ .leave n :: waiting) (below.pushAll results) p

/-- What is on the stacks when steps are waiting. -/
inductive Stacked (r : Replacers σ) (root : Node) : List Step → Rebuilt → Prop where
  | enter {n depth waiting built} :
    Awaits r root waiting built n →
    Stacked r root (.enter n depth :: waiting) built
  | leave {n waiting below results} :
    Awaits r root waiting below n →
    n.defect? = none →
    List.Forall₂ r.Result n.parts results →
    Stacked r root (.leave n :: waiting) (below.pushAll results)
  | done {a} :
    r.Result root a →
    Stacked r root [] (Rebuilt.push {} a)

variable {r : Replacers σ} {root n : Node} {waiting : List Step} {below built : Rebuilt}

/-- A node is finished as a node of its sort. -/
lemma finish_ensures (r : Replacers σ) (n : Node) (results : List Node) :
    (r.finish n results : RunM σ Rebuilt Node).Ensures (·.sort = n.sort) := by
  cases n with
  | op o =>
    refine (RunM.Ensures.trivial _).bind fun _ _ => (RunM.Ensures.trivial _).bind fun _ _ => ?_
    exact (RunM.Ensures.trivial _).bind fun _ _ => .pure rfl
  | expr e => exact (RunM.Ensures.trivial _).bind fun _ _ => .pure rfl

/-- What stands in the place of a node is of its sort. -/
lemma Result.sort_eq {a : Node} (h : r.Result n a) : a.sort = n.sort := by
  cases h with
  | finish _ hrun => exact r.finish_ensures n _ hrun

/-- What stands in the places of parts are results for them. -/
lemma results_of_forall₂ {parts results : List Node}
    (h : List.Forall₂ r.Result parts results) : Results parts results :=
  h.imp fun _ _ => Result.sort_eq

namespace Awaits

/-- A node for which a result is awaited stands in the tree. -/
lemma within (h : Awaits r root waiting below n) : n.Within root := by
  induction h with
  | root => exact .here
  | @part _ _ n finished p rest _ _ _ _ hparts _ ih =>
    have hp : p ∈ n.parts := by
      rw [hparts]
      exact List.mem_append_right finished (.head rest)
    exact Node.Within.trans (.part hp .here) ih

/-- With the first parts of a node finished, the next part is entered or the node is left. -/
lemma next {finished rest results : List Node} (h : Awaits r root waiting below n)
    (hdefect : n.defect? = none) (hparts : n.parts = finished ++ rest)
    (hresults : List.Forall₂ r.Result finished results) (depth : Nat) :
    Stacked r root (rest.map (.enter · depth) ++ .leave n :: waiting) (below.pushAll results) := by
  cases rest with
  | nil =>
    rw [List.append_nil] at hparts
    exact .leave h hdefect (hparts ▸ hresults)
  | cons p rest => exact .enter (.part h hdefect hparts hresults)

/-- The awaited result comes on top of what is on the stacks. -/
lemma push {a : Node} (h : Awaits r root waiting below n) (ha : r.Result n a) :
    Stacked r root waiting (below.push a) := by
  cases h with
  | root => exact .done ha
  | @part waiting below m finished _ rest results depth hm hdefect hparts hresults =>
    -- `n` is the first part of `m` that is not finished, and it is finished now
    have hparts' : m.parts = (finished ++ [n]) ++ rest := by
      rw [hparts, List.append_assoc, List.singleton_append]
    have hresults' : List.Forall₂ r.Result (finished ++ [n]) (results ++ [a]) :=
      List.rel_append hresults (.cons ha .nil)
    have hpush : (below.pushAll results).push a = below.pushAll (results ++ [a]) :=
      (below.pushAll_append results [a]).symm
    rw [hpush]
    exact hm.next hdefect hparts' hresults' depth

end Awaits

/-- A node that is left finds one result for each of its parts on top of the stacks and can be
rebuilt from them. -/
lemma Stacked.rebuild {s : Step} {rest : List Step} (hroot : root.Distinct)
    (h : Stacked r root (s :: rest) built) (hs : s = .leave n) :
    ∃ results below, List.Forall₂ r.Result n.parts results ∧ built = below.pushAll results ∧
      n.rebuild.run built = .ok (n.over results, below) := by
  cases h with
  | enter => cases hs
  | @leave _ _ below results hn _ hresults =>
    cases hs
    have hr := results_of_forall₂ hresults
    exact ⟨results, below, hresults, rfl, Node.rebuild_pushAll (hroot.within hn.within) hr below⟩

/-- At the end the result is all there is on the stacks. -/
lemma Stacked.result {steps : List Step} (h : Stacked r root steps built) (hend : steps = []) :
    ∃ a, r.Result root a ∧ a.sort = root.sort ∧ built = Rebuilt.push {} a := by
  cases h with
  | enter | leave => cases hend
  | @done a ha => exact ⟨a, ha, ha.sort_eq, rfl⟩

/-! ### Steps -/

variable {config : Config} {t u : Session σ Rebuilt}

/-- A node that is entered has no defect, and the stacks stay. -/
lemma enter_ok {depth : Nat} (h : (r.perform config (.enter n depth)).run t = (.ok (), u)) :
    n.defect? = none ∧ u.own = t.own := by
  have hpasses : RunM.Passes (r.perform config (.enter n depth))
      (r.perform config (.enter n depth)) :=
    (RunM.Passes.checkDepth config depth).bind fun _ => RunM.Passes.reach _ _ n depth
  have hown := hpasses.own_eq t
  rw [h] at hown
  refine ⟨?_, hown⟩
  obtain ⟨_, t₁, -, h₁⟩ := RunM.ok_of_bind h
  obtain ⟨_, t₂, -, h₂⟩ := RunM.ok_of_bind h₁
  obtain ⟨_, t₃, h₃, -⟩ := RunM.ok_of_bind h₂
  unfold RunM.checkNode at h₃
  split at h₃
  · cases h₃
  · assumption

/-- Leaving a node puts a result for it in the place of those for its parts. -/
lemma leave_ok {results : List Node} (hn : n.Distinct)
    (hresults : List.Forall₂ r.Result n.parts results) (hown : t.own = below.pushAll results)
    (h : (r.perform config (.leave n)).run t = (.ok (), u)) :
    ∃ a, r.Result n a ∧ u.own = below.push a := by
  have hleave := r.perform_leave config hn (results_of_forall₂ hresults) below t
  rw [← hown] at hleave
  obtain ⟨a, v, hfinish, hpush⟩ := RunM.ok_of_bind (hleave.symm.trans h)
  have hv := (r.passes_finish n results).own_eq { t with own := below }
  rw [hfinish] at hv
  cases hpush
  exact ⟨a, .finish hresults hfinish, congrArg (·.push a) hv⟩

/-- Each step keeps the stacks in order. -/
lemma stacked_step {L M : Loop σ Rebuilt} (hroot : root.Distinct)
    (h : Stacked r root L.waiting L.session.own) (hstep : Iterates (r.perform config) L M) :
    Stacked r root M.waiting M.session.own := by
  obtain ⟨hrun⟩ := hstep
  rename_i s waiting t u
  -- the stacks stand in the indices of `Stacked`, which `cases` can only take apart as variables
  generalize hown : t.own = built at h
  cases h with
  | @enter n depth _ _ hn =>
    obtain ⟨hdefect, hu⟩ := enter_ok hrun
    rw [hu, hown]
    exact hn.next hdefect rfl .nil (depth + 1)
  | leave hn _ hresults =>
    obtain ⟨a, ha, hu⟩ := leave_ok (hroot.within hn.within) hresults hown hrun
    rw [hu]
    exact hn.push ha

/-- In every state that a run reaches the stacks are in order. -/
theorem stacked_of_reaches {L : Loop σ Rebuilt} {s : Session σ Rebuilt} {depth : Nat}
    (hroot : root.Distinct) (hs : s.own = {})
    (h : Reaches (r.perform config) ⟨[.enter root depth], s⟩ L) :
    Stacked r root L.waiting L.session.own := by
  induction h with
  | refl =>
    rw [hs]
    exact .enter .root
  | tail _ hstep ih => exact stacked_step hroot ih hstep

end QueryPlan.Replacers
