import QueryPlan.Proofs.DepthLimit
import QueryPlan.Proofs.RewriteAt
import QueryPlan.Proofs.WalkHistory

/-!
# The counters of a walker

A walker goes on counting from walk to walk. `Counters.ofTurns` counts what walks came to: the nodes
that were left, of each sort, and the greatest depth of a node that was let pass.
`Visitors.walkAll_counters` says that this is what the counters show after any history, and what
follows from it.

Each turn adds what it counts, also when it fails (`Visitors.perform_counted`). A walk that stops at
a node that is too deep has let pass a node at the limit above it
(`Visitors.limit_le_of_walk_endsTooDeep`), and a walk that succeeds has let pass every node of its
trees, which are as high as their nodes stand deep (`Counters.ofTurns_trees`).
-/

namespace QueryPlan

variable {σ τ α : Type} {config : Config}

namespace Counters

/-- What some turns count: the nodes left and the greatest depth of a node let pass. -/
def ofTurns (config : Config) (turns : List (Place × Turn)) : Counters where
  ops := (turns.flatMap fun x => x.2.left).countP fun m => m.sort = "operator"
  exprs := (turns.flatMap fun x => x.2.left).countP fun m => m.sort = "expression"
  maxDepth := ((turns.flatMap (Turn.passed config)).map fun x => x.1.length + 1).foldr max 0

/-- The sizes and the height of some trees. -/
def ofTrees (trees : List Node) : Counters where
  ops := total (trees.map fun n => n.count "operator")
  exprs := total (trees.map fun n => n.count "expression")
  maxDepth := (trees.map Node.height).foldr max 0

/-- What was counted first and what was counted then. -/
def together (c d : Counters) : Counters where
  ops := c.ops + d.ops
  exprs := c.exprs + d.exprs
  maxDepth := max c.maxDepth d.maxDepth

/-- Nothing counted afterwards adds nothing. -/
lemma together_zero (c : Counters) : c.together {} = c := by
  rw [together, Nat.add_zero, Nat.add_zero, Nat.max_zero]

/-- Nothing counted before adds nothing. -/
lemma zero_together (c : Counters) : together {} c = c := by
  rw [together, Nat.zero_add, Nat.zero_add, Nat.zero_max]

/-- Three counts are put together in either order of grouping. -/
lemma together_assoc (c d e : Counters) :
    (c.together d).together e = c.together (d.together e) := by
  simp only [together, Nat.add_assoc, Nat.max_assoc]

/-- An operator that is left counts as one. -/
lemma countOp_eq (c : Counters) : c.countOp = c.together { ops := 1 } := by
  rw [together, Nat.max_zero]
  rfl

/-- An expression that is left counts as one. -/
lemma countExpr_eq (c : Counters) : c.countExpr = c.together { exprs := 1 } := by
  rw [together, Nat.max_zero]
  rfl

/-- Turns add up. -/
lemma ofTurns_append (first last : List (Place × Turn)) :
    ofTurns config (first ++ last) = (ofTurns config first).together (ofTurns config last) := by
  simp only [ofTurns, together, List.flatMap_append, List.countP_append, List.map_append,
    foldr_max_append]

end Counters

/-! ### What turns add to the counters -/

/-- From one session to the other the counters have gone up by what the turns count. -/
def Counted (config : Config) (turns : List (Place × Turn)) (s t : Session σ Counters) : Prop :=
  t.own = s.own.together (.ofTurns config turns)

/-- What turns count adds up along a run. -/
lemma accumulates_counted (config : Config) :
    RunM.Accumulates (Counted config : _ → Session σ Counters → _ → Prop) where
  nil s := (Counters.together_zero s.own).symm
  append {xs ys s t u} h h' := by
    rw [Counted, h', h, Counters.together_assoc, Counters.ofTurns_append]

/-- A change of the counters counts, and what passes does not. -/
lemma Counted.modifyOwn {x : RunM σ Counters α} (hx : RunM.Passes x x) {f : Counters → Counters}
    {turns : List (Place × Turn)} (hf : ∀ c, f c = c.together (.ofTurns config turns))
    (s : Session σ Counters) :
    Counted config turns s ((RunM.modifyOwn f >>= fun _ => x).run s).2 :=
  (hx.own_eq { s with own := f s.own }).trans (hf s.own)

/-- Each turn adds what it counts, also when it fails. -/
lemma Visitors.perform_counted (config : Config) (v : Visitors σ) (x : Place × Turn)
    (s : Session σ Counters) :
    Counted config [x] s ((v.perform config (Turn.step 1 x)).run s).2 := by
  obtain ⟨π, m | o | e⟩ := x
  · show Counted config _ s ((v.perform config (.enter m (1 + π.length))).run s).2
    rw [Nat.add_comm]
    rcases hrefusal : config.refusal (π.length + 1) with _ | e
    · rw [perform, RunM.checkDepth_of_none hrefusal, pure_bind]
      refine .modifyOwn (.reach _ _ _ _) (fun c => ?_) s
      have hpassed : Turn.passed config (π, .enter m) = [(π, m)] := if_pos hrefusal
      simp only [Counters.ofTurns, List.flatMap_singleton, hpassed]
      rfl
    · obtain ⟨limit, hlimit, hlt, rfl⟩ := Config.refusal_eq_some_iff.1 hrefusal
      have hpassed : Turn.passed config (π, .enter m) = [] := by
        rw [Turn.passed, hrefusal]
        rfl
      rw [perform, RunM.bind_of_error (RunM.checkDepth_of_lt hlimit hlt s), Counted]
      simp only [Counters.ofTurns, List.flatMap_singleton, hpassed]
      exact (Counters.together_zero s.own).symm
  · exact .modifyOwn ((RunM.Passes.notify _ _).bind fun _ => .close _ _) Counters.countOp_eq s
  · exact .modifyOwn (.notify _ _) Counters.countExpr_eq s

/-! ### Walks that stop at a node that is too deep -/

namespace RunM.EndsTooDeep

variable {limit : Nat} {s : Session (Recorded σ) τ}

/-- Of the members of a list, the run over it comes to one that stops so. -/
lemma of_forM {f : α → RunM (Recorded σ) τ Unit} {as : List α}
    (hf : ∀ a, (f a).StopsWith fun _ => True)
    (h : (forM as f : RunM (Recorded σ) τ Unit).EndsTooDeep limit s) :
    ∃ first a rest t, as = first ++ a :: rest ∧ (forM first f).run s = (.ok (), t) ∧
      (f a).EndsTooDeep limit t := by
  induction as generalizing s with
  | nil => cases h.result
  | cons a as ih =>
    obtain ⟨hresult, calls, hcalls, hsucceeded⟩ := h
    rw [List.forM_cons] at hresult hcalls
    rcases hrun : (f a).run s with ⟨e | _, t⟩
    · rw [bind_of_error hrun] at hresult hcalls
      refine ⟨[], a, as, s, rfl, rfl, ?_, calls, ?_, hsucceeded⟩
      · rw [hrun]
        exact hresult
      · rw [hrun]
        exact hcalls
    · rw [bind_of_ok hrun] at hresult hcalls
      obtain ⟨calls', hcalls', -⟩ := (hf a).calls_succeeded hrun
      have hlater : (forM as f : RunM (Recorded σ) τ Unit).StopsWith fun _ => True :=
        .forM fun a _ => hf a
      obtain ⟨c, ⟨more, hmore, -⟩, -⟩ := hlater t
      have hsplit : calls = calls' ++ more := by
        rw [hmore, hcalls', List.append_assoc] at hcalls
        exact (List.append_cancel_left hcalls).symm
      have hrest : (forM as f : RunM (Recorded σ) τ Unit).EndsTooDeep limit t :=
        ⟨hresult, more, hmore, fun call hcall =>
          hsucceeded call (hsplit ▸ List.mem_append_right _ hcall)⟩
      obtain ⟨first, a', rest, u, rfl, hfirst, ha'⟩ := ih hrest
      refine ⟨a :: first, a', rest, u, rfl, ?_, ha'⟩
      rw [List.forM_cons, bind_of_ok hrun, hfirst]

end RunM.EndsTooDeep

/-- Before a node is entered, those above it have been entered. -/
lemma Node.enter_above {n m : Node} {π : Place} {first rest : List (Place × Turn)}
    (h : n.turns = first ++ (π, .enter m) :: rest) {i : Nat} (hi : i < π.length) :
    ∃ k, (π.take i, .enter k) ∈ first := by
  obtain ⟨hm, after, hcut⟩ := exists_cutTurns h
  rw [← List.take_append_drop i π, at?_append] at hm
  obtain ⟨k, hk, -⟩ := Option.bind_eq_some_iff.1 hm
  have hne : π.take i ≠ π := by
    intro heq
    have hlength := congrArg List.length heq
    rw [List.length_take] at hlength
    omega
  exact ⟨k, (hcut.above _ k (List.take_prefix i π) hne hk).1 _ (.head _)⟩

namespace Visitors

variable {v : Visitors σ} {limit : Nat}

/-- The step that stops so enters a node deeper than the limit. -/
lemma enter_of_endsTooDeep {step : Step} {s : Session (Recorded σ) Counters}
    (h : (v.recorded.perform config step).EndsTooDeep limit s) :
    ∃ m depth, step = .enter m depth ∧ limit < depth := by
  obtain ⟨hresult, calls, hcalls, hsucceeded⟩ := h
  obtain ⟨calls', hcalls', hallows⟩ := v.perform_follows config step s
  rw [hresult] at hallows
  cases hallows with
  | failed _ _ hlast =>
    cases List.append_cancel_left (hcalls.symm.trans hcalls')
    exact absurd hlast (hsucceeded _ List.mem_concat_self _)
  | stopped hstop =>
    rw [Step.stop_course] at hstop
    cases step with
    | leave m => cases hstop
    | enter m depth =>
      rcases Option.or_eq_some_iff.1 hstop with hdepth | ⟨-, hdefect⟩
      · obtain ⟨limit', -, hlt, heq⟩ := Config.refusal_eq_some_iff.1 hdepth
        cases heq
        exact ⟨m, depth, rfl, hlt⟩
      · obtain ⟨d, -, hd⟩ := Node.refusal_eq_some_iff.1 hdefect
        exact absurd hd (d.error_ne_tooDeep limit)

/-- Before a node deeper than the limit its ancestor at the limit was let pass. -/
lemma limit_le_of_endsTooDeep {n : Node} {s : Session (Recorded σ) Counters}
    (hlimit : config.maxDepth = some limit)
    (h : (v.recorded.walkTree config n).EndsTooDeep limit s) :
    limit ≤ (Counters.ofTurns config (n.turnsBegun (v.recorded.perform config) s)).maxDepth := by
  rcases Nat.eq_zero_or_pos limit with rfl | hpos
  · exact Nat.zero_le _
  rw [walkTree, Node.drain_turns] at h
  obtain ⟨first, ⟨π, turn⟩, rest, t, hturns, hfirst, hx⟩ :=
    h.of_forM fun x s => ⟨_, v.perform_follows config _ s, fun _ _ => trivial⟩
  obtain ⟨m, depth, hstep, hlt⟩ := enter_of_endsTooDeep hx
  cases turn with
  | leave m => cases hstep
  | enter m =>
    cases hstep
    have hdepth : (π.take (limit - 1)).length + 1 = limit := by
      rw [List.length_take]
      omega
    obtain ⟨k, hk⟩ := Node.enter_above hturns (i := limit - 1) (by omega)
    have hmem :
        (π.take (limit - 1), Turn.enter k) ∈ n.turnsBegun (v.recorded.perform config) s := by
      rw [Node.turnsBegun, hturns, RunM.begun_append hfirst]
      exact List.mem_append_left _ hk
    have hpassed : (π.take (limit - 1), k) ∈ Turn.passed config (π.take (limit - 1), .enter k) := by
      rw [Turn.passed, hdepth, if_pos]
      · exact .head _
      · refine Config.refusal_eq_none_iff.2 fun limit' hlimit' => ?_
        cases hlimit.symm.trans hlimit'
        exact Nat.le_refl _
    refine List.le_max_of_le' 0 (List.mem_map_of_mem (List.mem_flatMap.2 ⟨_, hmem, hpassed⟩)) ?_
    exact Nat.le_of_eq hdepth.symm

/-- A walk that is stopped by the limit has noted a depth no smaller than the limit. -/
lemma limit_le_of_walk_endsTooDeep {root : Root} {s : Session (Recorded σ) Counters}
    (hlimit : config.maxDepth = some limit)
    (h : (v.recorded.walk config root).EndsTooDeep limit s) :
    limit ≤ (Counters.ofTurns config (v.recorded.turnsBegun config root s)).maxDepth := by
  have hstops (n : Node) : (v.recorded.walkTree config n).StopsWith fun _ => True := by
    intro s
    obtain ⟨c, -, hwalk⟩ := v.walkTree_follows config n s
    exact ⟨c, hwalk, fun _ _ => trivial⟩
  obtain ⟨first, n, rest, t, htrees, hfirst, hn⟩ := h.of_forM hstops
  obtain ⟨us, hmapM⟩ := RunM.mapM_of_forM hfirst
  have hrun : (v.recorded.walkTree config n).run t = (.error (.tooDeep limit), _) :=
    Prod.ext hn.result rfl
  rw [turnsBegun, htrees, RunM.along_append hmapM, RunM.along_of_error hrun,
    Counters.ofTurns_append]
  exact Nat.le_trans (limit_le_of_endsTooDeep hlimit hn) (Nat.le_max_right _ _)

end Visitors

/-! ### Whole trees -/

namespace Node

/-- A tree is left in postorder. -/
lemma flatMap_left_turns (n : Node) :
    (n.turns.flatMap fun x => x.2.left) = n.postorder.map Prod.snd := by
  have hplaced : n.turns.flatMap (fun x => x.2.left.map (x.1, ·)) = n.postorder := by
    rw [turns, flatMap_tour]
    simp only [List.flatMap_singleton, Turn.left]
    rfl
  rw [← hplaced, List.map_flatMap]
  simp only [List.map_map, Function.comp_def, List.map_id']

/-- The nodes of one sort that are left are the nodes of this sort in the tree. -/
lemma countP_left_turns (n : Node) (sort : String) :
    (n.turns.flatMap fun x => x.2.left).countP (fun m => m.sort = sort) = n.count sort := by
  rw [flatMap_left_turns, List.countP_map, List.countP_eq_length_filter]
  rfl

end Node

namespace Counters

/-- All turns of some trees count what there is in the trees. -/
lemma ofTurns_trees {trees : List Node}
    (h : (trees.flatMap Node.turns).flatMap (Turn.passed config) = trees.flatMap Node.preorder) :
    ofTurns config (trees.flatMap Node.turns) = ofTrees trees := by
  have hsort (sort : String) :
      ((trees.flatMap Node.turns).flatMap fun x => x.2.left).countP (fun m => m.sort = sort) =
        total (trees.map fun n => n.count sort) := by
    clear h
    induction trees with
    | nil => rfl
    | cons n trees ih =>
      rw [List.flatMap_cons, List.flatMap_append, List.countP_append, n.countP_left_turns, ih,
        List.map_cons, total_cons]
  have hdepth : ((trees.flatMap Node.preorder).map fun x => x.1.length + 1).foldr max 0 =
      (trees.map Node.height).foldr max 0 := by
    clear h hsort
    induction trees with
    | nil => rfl
    | cons n trees ih =>
      rw [List.flatMap_cons, List.map_append, foldr_max_append, ih, ← n.height_eq_preorder,
        List.map_cons, List.foldr_cons]
  rw [ofTurns, ofTrees, hsort, hsort, h, hdepth]

/-- No turn notes a depth beyond the limit. -/
lemma maxDepth_ofTurns_le {limit : Nat} (h : config.maxDepth = some limit)
    (turns : List (Place × Turn)) : (ofTurns config turns).maxDepth ≤ limit := by
  refine foldr_max_le_iff.2 (List.forall_mem_map.2 fun x hx => ?_)
  obtain ⟨⟨π, m | m⟩, -, hx⟩ := List.mem_flatMap.1 hx
  · rw [Turn.passed] at hx
    split at hx
    · rw [List.mem_singleton.1 hx]
      exact Config.refusal_eq_none_iff.1 ‹_› limit h
    · cases hx
  · cases hx

end Counters

namespace Visitors

variable {v : Visitors σ}

/-- A walk that succeeds adds the sizes and the height of its trees to the counters. -/
lemma own_of_walk_ok {root : Root} {s t : Session σ Counters}
    (h : (v.walk config root).run s = (.ok (), t)) :
    t.own = s.own.together (.ofTrees root.trees) := by
  have hcounted := walk_accumulates (accumulates_counted config) (v.perform_counted config) root s
  have hpassed := passed_turnsBegun_of_ok h
  rw [turnsBegun_of_ok h] at hcounted hpassed
  rw [h, Counted, Counters.ofTurns_trees hpassed] at hcounted
  exact hcounted

/-- If no walk fails, every turn of every tree is begun, and all nodes are let pass. -/
lemma turnsBegunInAll_of_ok {roots : List Root} {results : List (Except RunError Unit)}
    {s t : Session σ Counters} (hrun : (v.walkAll config roots).run s = (.ok results, t))
    (h : ∀ result ∈ results, result = .ok ()) :
    Counters.ofTurns config (v.turnsBegunInAll config roots s) =
      .ofTrees (roots.flatMap Root.trees) := by
  have hok (root : Root) (result) (hresult : result ∈ results) (s t : Session σ Counters)
      (hattempt : (v.walk config root).attempt.run s = (.ok result, t)) :
      (v.walk config root).run s = (.ok (), t) := by
    cases hattempt
    exact Prod.ext (h _ hresult) rfl
  have hturns : v.turnsBegunInAll config roots s =
      (roots.flatMap Root.trees).flatMap Node.turns := by
    rw [List.flatMap_assoc]
    exact RunM.along_whole (fun root _ b hb s t hrun => turnsBegun_of_ok (hok root b hb s t hrun))
      hrun
  have hpassed : (v.turnsBegunInAll config roots s).flatMap (Turn.passed config) =
      (roots.flatMap Root.trees).flatMap Node.preorder := by
    rw [List.flatMap_assoc, turnsBegunInAll, RunM.flatMap_along]
    exact RunM.along_whole
      (fun root _ b hb s t hrun => passed_turnsBegun_of_ok (hok root b hb s t hrun)) hrun
  rw [hturns] at hpassed ⊢
  exact Counters.ofTurns_trees hpassed

/-- A walk of a history counts at least what it counts by itself. -/
lemma maxDepth_le_of_mem {roots first rest : List Root} {root : Root} {s t : Session σ Counters}
    {results : List (Except RunError Unit)} (h : roots = first ++ root :: rest)
    (hfirst : (v.walkAll config first).run s = (.ok results, t)) :
    (Counters.ofTurns config (v.turnsBegun config root t)).maxDepth ≤
      (Counters.ofTurns config (v.turnsBegunInAll config roots s)).maxDepth := by
  have hcons : v.turnsBegunInAll config (root :: rest) t =
      v.turnsBegun config root t ++ v.turnsBegunInAll config rest _ :=
    RunM.along_of_ok (RunM.run_attempt (v.walk config root) t)
  rw [turnsBegunInAll, h, RunM.along_append hfirst, ← turnsBegunInAll, ← turnsBegunInAll, hcons,
    Counters.ofTurns_append, Counters.ofTurns_append]
  exact Nat.le_trans (Nat.le_max_left _ _) (Nat.le_max_right _ _)

/-- What the counters of one walker show after any walks, whatever their roots are and wherever
callbacks fail.

They show the operators and expressions that were left, those of them included whose visitor then
failed, and the greatest depth that was let pass. That is never more than the limit, and it is the
limit once a walk stopped at a node that is too deep. If no walk failed, they show the sizes of all
trees and the height of the highest one. No walk depends on them: apart from the counters, each goes
as it does on a walker that has counted nothing. -/
theorem walkAll_counters (config : Config) (v : Visitors σ) (roots : List Root) (caller : σ)
    (log : Array LogRecord) :
    let s : Session (Recorded σ) Counters := ⟨⟨caller, []⟩, {}, log⟩
    let turns := v.recorded.turnsBegunInAll config roots s
    ∃ results t,
      (v.recorded.walkAll config roots).run s = (.ok results, t) ∧
      (v.walkAll config roots).run s.forget = (.ok results, t.forget) ∧
      t.own = .ofTurns config turns ∧
      t.caller.calls.filterMap (·.event.visited?) =
        (turns.flatMap fun x => x.2.left).filter v.visits ∧
      (∀ limit, config.maxDepth = some limit →
        t.own.maxDepth ≤ limit ∧
        ∀ first root rest, roots = first ++ root :: rest →
          (v.recorded.walk config root).EndsTooDeep limit
            ((v.recorded.walkAll config first).run s).2 →
          t.own.maxDepth = limit) ∧
      ((∀ result ∈ results, result = .ok ()) → t.own = .ofTrees (roots.flatMap Root.trees)) ∧
      ∀ (root : Root) (u : Session σ Counters), ∃ own,
        (v.walk config root).run { u with own := {} } =
          (((v.walk config root).run u).1, { ((v.walk config root).run u).2 with own }) := by
  intro s turns
  obtain ⟨results, t, hrun⟩ := RunM.mapM_attempt (v.recorded.walk config) roots s
  have hforget := v.walkAll_recorded config roots s
  have hcounted := walkAll_accumulates (accumulates_counted config)
    (v.recorded.perform_counted config) roots s
  have hvisited := walkAll_accumulates (accumulates_visited v) (v.perform_visited config) roots s
  replace hrun : (v.recorded.walkAll config roots).run s = (.ok results, t) := hrun
  rw [hrun] at hforget hcounted hvisited
  have hown : t.own = .ofTurns config turns := hcounted.trans (Counters.zero_together _)
  obtain ⟨calls, hcalls, hvisits⟩ := hvisited
  refine ⟨results, t, hrun, hforget, hown, ?_, fun limit hlimit => ⟨?_, ?_⟩, fun hok => ?_,
    fun root u => v.walk_blind config root u {}⟩
  · rw [hcalls]
    exact hvisits
  · rw [hown]
    exact Counters.maxDepth_ofTurns_le hlimit turns
  · intro first root rest hroots hdeep
    obtain ⟨results', u, hfirst⟩ := RunM.mapM_attempt (v.recorded.walk config) first s
    replace hfirst : (v.recorded.walkAll config first).run s = (.ok results', u) := hfirst
    rw [hfirst] at hdeep
    have hle := (limit_le_of_walk_endsTooDeep hlimit hdeep).trans (maxDepth_le_of_mem hroots hfirst)
    rw [hown]
    exact Nat.le_antisymm (Counters.maxDepth_ofTurns_le hlimit turns) hle
  · rw [hown]
    exact turnsBegunInAll_of_ok hrun hok

/-- A walk that is cut short at depth three and a walk of a variable after it leave three for the
greatest depth. -/
theorem counting_counters_of_nested :
    let config : Config := ⟨some 3⟩
    let s : Session (Recorded Nat) Counters := ⟨⟨0, []⟩, {}, #[]⟩
    (counting.recorded.walk config (.op .nested)).EndsTooDeep 3 s ∧
      ∃ results t,
        (counting.recorded.walkAll config [.op .nested, .expr (.var ⟨"x"⟩)]).run s =
          (.ok results, t) ∧
        t.own.maxDepth = 3 := by
  intro config s
  have hends : (counting.recorded.walk config (.op .nested)).EndsTooDeep 3 s := by
    rw [walk_op]
    refine ⟨?_, walkTree_answered neverFail_counting config (.op .nested) s⟩
    rw [walkTree, drain_enter, ← visit_eq_forM]
    rfl
  obtain ⟨results, t, hrun, -, -, -, hlimit, -, -⟩ :=
    walkAll_counters config counting [.op .nested, .expr (.var ⟨"x"⟩)] 0 #[]
  obtain ⟨-, hdeep⟩ := hlimit 3 rfl
  exact ⟨hends, results, t, hrun, hdeep [] _ _ rfl hends⟩

end Visitors

end QueryPlan
