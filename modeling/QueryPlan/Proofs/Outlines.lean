import QueryPlan.Outline
import QueryPlan.Proofs.Arrivals
import QueryPlan.Proofs.OwnedLists
import QueryPlan.Proofs.Scopes

/-!
# Outlines render scopes

The hooks and the visitor that write an outline share a counter, and one of them counts it down.
`Node.rendering` is the outline of a tree by recursion and needs no counter. `Op.RendersScopes` says
how the two go together, at every turn that a walk comes to, and when it ends, in an error or not.

`Outline.Takes` lists what a turn may do to an outline: where a line is written, the counter is the
number of composite operators around the node. The outline after the first turns of a tree can be
read off the scopes that are open then (`Node.outlineAfter`), so the counter is right because scopes
are nested (`Node.takes_outlineAfter`). All that is left is a look at each callback
(`Outline.Takes.run`).
-/

namespace QueryPlan

variable {config : Config}

/-! ### The outline of a tree -/

/-- A text set in by two blanks for each of some scopes. -/
def Outline.indented (depth : Nat) (text : String) : String :=
  String.ofList (List.replicate (2 * depth) ' ') ++ text

/-- The outline of a tree inside some scopes. A leaf operator is its printed form, a composite
operator stands around what is below it in visiting order, and expressions have no lines of their
own. -/
def Node.rendering (depth : Nat) : Node → List String
  | op o =>
    if o.isComposite then
      Outline.indented depth (o.name ++ " \x7b") ::
        o.parts.attach.flatMap (fun ⟨p, _⟩ => p.rendering (depth + 1)) ++
        [Outline.indented depth "\x7d"]
    else [Outline.indented depth o.text]
  | expr e => e.parts.attach.flatMap fun ⟨p, _⟩ => p.rendering depth
termination_by n => sizeOf n
decreasing_by
  · exact sizeOf_lt_of_mem_parts (n := op o) ‹_›
  · exact sizeOf_lt_of_mem_parts (n := expr e) ‹_›

/-- What a turn does to an outline, at a node inside `depth` scopes. -/
inductive Outline.Takes (depth : Nat) : Turn → Outline → Outline → Prop where
  | opens {o lines} :
    o.isComposite = true →
    Takes depth (.enter (.op o)) ⟨depth, lines⟩
      ⟨depth + 1, lines ++ [indented depth (o.name ++ " \x7b")]⟩
  | leaf {o lines} :
    o.isComposite = false →
    Takes depth (.leave (.op o)) ⟨depth, lines⟩ ⟨depth, lines ++ [indented depth o.text]⟩
  | closes {o lines} :
    o.isComposite = true →
    Takes depth (.leave (.op o)) ⟨depth + 1, lines⟩ ⟨depth, lines ++ [indented depth "\x7d"]⟩
  | entersLeaf {n outline} :
    n.isComposite = false →
    Takes depth (.enter n) outline outline
  | leavesExpr {e outline} :
    Takes depth (.leave (.expr e)) outline outline

/-- The walk that writes the outline of a plan comes to a turn in a session: the turns before it
have been taken. -/
def Op.OutlineComesTo (config : Config) (plan : Op) (x : Place × Turn)
    (t : Session Outline Counters) : Prop :=
  ∃ first rest, (Node.op plan).turns = first ++ x :: rest ∧
    (forM first fun y => Outline.visitors.perform config (Turn.step 1 y)).run ⟨{}, {}, #[]⟩ =
      (.ok (), t)

/-- How the outline of a plan is written. -/
structure Op.RendersScopes (config : Config) (plan : Op) : Prop where
  /-- In every state in which a composite operator is left a scope is open, so the counter is never
  counted down from zero. -/
  safe : ∀ o rest t,
    Reaches (Outline.visitors.perform config) ⟨[.enter (.op plan) 1], ⟨{}, {}, #[]⟩⟩
      ⟨.leave (.op o) :: rest, t⟩ →
    o.isComposite = true → 0 < t.caller.depth
  /-- Each turn writes the line of its operator, if any, and at that line the counter is the number
  of composite operators above. -/
  taken : ∀ π turn t u, plan.OutlineComesTo config (π, turn) t →
    (Outline.visitors.perform config (Turn.step 1 (π, turn))).run t = (.ok (), u) →
    Outline.Takes ((Node.op plan).scopesAbove π).length turn t.caller u.caller
  /-- The walk stops only at a node that is refused, before anything is written for it. -/
  refused : ∀ π turn t e u, plan.OutlineComesTo config (π, turn) t →
    (Outline.visitors.perform config (Turn.step 1 (π, turn))).run t = (.error e, u) →
    u.caller = t.caller ∧ ∃ n, turn = .enter n ∧ n.Bad config (π.length + 1) e
  /-- A walk that succeeds has written the rendering of the plan and closed every scope. -/
  whole : ∀ outline, plan.outline config = (.ok (), outline) →
    outline = ⟨0, (Node.op plan).rendering 0⟩
  /-- A walk that fails has written the first lines of it, and a node of the plan was refused. -/
  part : ∀ e outline, plan.outline config = (.error e, outline) →
    outline.lines <+: (Node.op plan).rendering 0 ∧
      ∃ π n, (Node.op plan).at? π = some n ∧ n.Bad config (π.length + 1) e
  /-- If none has to be refused the walk succeeds. -/
  succeeds : (∀ π n e, (Node.op plan).at? π = some n → ¬ n.Bad config (π.length + 1) e) →
    (plan.outline config).1 = .ok ()

/-! ### Renderings -/

/-- The text of the line that is written for an event. -/
def Event.line? : Event → Option String
  | before o => some (o.name ++ " \x7b")
  | op o => if o.isComposite then none else some o.text
  | expr _ => none
  | after _ => some "\x7d"

/-- The line for an event of a tree, set in by the scopes around its node. -/
def Node.linesAt (n : Node) (x : Place × Event) : List String :=
  x.2.line?.toList.map (Outline.indented (n.scopesAbove x.1).length)

/-- An operator that is not composite has no parts. -/
lemma Op.parts_of_leaf {o : Op} (ho : o.isComposite = false) : o.parts = [] := by
  cases o with
  | scan | empty => rfl
  | _ => cases ho

namespace Node

variable {n m root : Node} {π : Place}

/-- A composite operator stands around the rendering of its parts, set in by one more scope. -/
lemma rendering_composite {o : Op} (ho : o.isComposite = true) (depth : Nat) :
    (op o).rendering depth =
      Outline.indented depth (o.name ++ " \x7b") :: o.parts.flatMap (rendering (depth + 1)) ++
        [Outline.indented depth "\x7d"] := by
  rw [rendering, if_pos ho]
  congr 2
  conv_rhs => rw [← List.attach_map_subtype_val o.parts, List.flatMap_map]

/-- An operator without parts is rendered as one line. -/
lemma rendering_leaf {o : Op} (ho : o.isComposite = false) (depth : Nat) :
    (op o).rendering depth = [Outline.indented depth o.text] := by
  rw [rendering, if_neg (ne_true_of_eq_false ho)]

/-- An expression is rendered as what stands in its parts. -/
lemma rendering_expr (e : Expr) (depth : Nat) :
    (expr e).rendering depth = e.parts.flatMap (rendering depth) := by
  rw [rendering]
  conv_rhs => rw [← List.attach_map_subtype_val e.parts, List.flatMap_map]

/-- The lines for the events of the subtree at a place are its rendering there. -/
lemma flatMap_linesAt_beneath (h : root.at? π = some n) :
    (beneath π n.placed).flatMap root.linesAt = n.rendering (root.scopesAbove π).length := by
  induction n using inductionOnParts generalizing π with
  | step n ih =>
    -- the parts stand inside the scopes around `n` and that of `n` itself, if it has one
    have hparts : (n.branches.flatMap fun b => beneath (π ++ [b.1]) b.2.placed).flatMap
        root.linesAt = n.parts.flatMap (rendering (root.scopesTo π).length) := by
      rw [List.flatMap_assoc, ← n.map_snd_branches, List.flatMap_map]
      refine List.flatMap_congr fun b hb => ?_
      have hpart : root.at? (π ++ [b.1]) = some b.2 := at?_concat h (mem_branches.1 hb)
      rw [ih b.2 (mem_parts_of_mem_branches hb) hpart, scopesAbove_concat]
    have hplaced : beneath π n.placed = _ := beneath_tour_eq opening closing π n
    rw [hplaced, List.flatMap_append, List.flatMap_append]
    change _ ++ List.flatMap _ (n.branches.flatMap fun b => beneath _ b.2.placed) ++ _ = _
    rw [hparts]
    rcases n with o | e
    · rcases ho : o.isComposite with _ | _
      · rw [rendering_leaf ho, opening, closing, ho, parts, Op.parts_of_leaf ho]
        simp [linesAt, Event.line?, ho]
      · rw [rendering_composite ho, opening, closing, ho, scopesTo_of_composite h ho, parts,
          List.length_append, List.length_singleton]
        simp [linesAt, Event.line?, ho]
    · rw [rendering_expr, scopesTo_of_leaf h rfl]
      simp [linesAt, Event.line?, opening, closing, parts]

/-- The lines for the events of a tree are its rendering. -/
lemma flatMap_linesAt_placed (n : Node) : n.placed.flatMap n.linesAt = n.rendering 0 := by
  have h := flatMap_linesAt_beneath n.at?_nil
  rwa [beneath_nil] at h

end Node

/-! ### The outline after some turns -/

/-- The events of some turns, at their places. -/
def Turn.fired (turns : List (Place × Turn)) : List (Place × Event) :=
  turns.flatMap fun x => x.2.events.map (x.1, ·)

/-- The outline of a tree after some of its turns. -/
def Node.outlineAfter (n : Node) (turns : List (Place × Turn)) : Outline where
  depth := (openScopes (Turn.fired turns)).length
  lines := (Turn.fired turns).flatMap n.linesAt

namespace Node

variable {n m : Node} {π : Place} {turn : Turn} {first rest : List (Place × Turn)}

/-- After all turns every scope is closed, and the lines are the rendering. -/
lemma outlineAfter_turns (n : Node) : n.outlineAfter n.turns = ⟨0, n.rendering 0⟩ := by
  have hopen : openScopes n.placed = [] := n.replays_events.last
  rw [outlineAfter, Turn.fired, flatMap_events_turns, hopen, flatMap_linesAt_placed]
  rfl

/-- The first turns of a tree write the first lines of its rendering. -/
lemma lines_outlineAfter_prefix (h : n.turns = first ++ rest) :
    (n.outlineAfter first).lines <+: n.rendering 0 := by
  rw [← flatMap_linesAt_placed, ← flatMap_events_turns, h, List.flatMap_append,
    List.flatMap_append]
  exact List.prefix_append _ _

/-- Before the first event of a turn the scopes are open that are open there in the tree. -/
lemma openScopes_of_turns {event : Event} {events : List Event}
    (h : n.turns = first ++ (π, turn) :: rest) (hevents : turn.events = event :: events) :
    openScopes (Turn.fired first) = n.scopesAt (π, event) := by
  have hreplays := n.replays_events
  rw [← flatMap_events_turns, h, List.flatMap_append, List.flatMap_cons, hevents, List.map_cons,
    List.cons_append] at hreplays
  exact hreplays.split

/-- A turn writes the lines of its events, with the scopes that are open then. -/
lemma outlineAfter_concat (first : List (Place × Turn)) (x : Place × Turn) :
    n.outlineAfter (first ++ [x]) =
      ⟨((x.2.events.map (x.1, ·)).foldl Event.replay (openScopes (Turn.fired first))).length,
        (n.outlineAfter first).lines ++ (x.2.events.map (x.1, ·)).flatMap n.linesAt⟩ := by
  have hfired : Turn.fired (first ++ [x]) = Turn.fired first ++ x.2.events.map (x.1, ·) := by
    rw [Turn.fired, List.flatMap_append, List.flatMap_singleton, ← Turn.fired]
  rw [outlineAfter, hfired, openScopes, List.foldl_append, List.flatMap_append, ← openScopes]
  rfl

/-- Entering a composite operator opens its scope, and entering another node does nothing. -/
lemma takes_enter (h : n.turns = first ++ (π, .enter m) :: rest) :
    Outline.Takes (n.scopesAbove π).length (.enter m) (n.outlineAfter first)
      (n.outlineAfter (first ++ [(π, .enter m)])) := by
  rw [outlineAfter_concat]
  rcases hm : m.isComposite with _ | _
  · have hevents : (Turn.enter m).events = [] := by
      cases m with
      | op o => exact if_neg (ne_true_of_eq_false hm)
      | expr e => rfl
    rw [hevents, List.map_nil, List.flatMap_nil, List.append_nil]
    exact .entersLeaf hm
  · cases m with
    | op o =>
      have hevents : (Turn.enter (op o)).events = [.before o] := if_pos hm
      have hopen : openScopes (Turn.fired first) = n.scopesAbove π := openScopes_of_turns h hevents
      rw [hevents, outlineAfter, hopen]
      simpa [linesAt, Event.line?, Event.replay] using Outline.Takes.opens hm
    | expr e => cases hm

/-- Leaving an operator closes its scope, or writes its line if it has none. -/
lemma takes_leave (h : n.turns = first ++ (π, .leave m) :: rest) :
    Outline.Takes (n.scopesAbove π).length (.leave m) (n.outlineAfter first)
      (n.outlineAfter (first ++ [(π, .leave m)])) := by
  have hm : n.at? π = some m := at?_of_mem_turns (.inr (h ▸ List.mem_append_cons_self))
  rw [outlineAfter_concat]
  rcases m with o | e
  · rcases ho : o.isComposite with _ | _
    · have hevents : (Turn.leave (op o)).events = [.op o] := by
        rw [Turn.events, closing, if_neg (ne_true_of_eq_false ho), List.append_nil]
      have hopen : openScopes (Turn.fired first) = n.scopesTo π := openScopes_of_turns h hevents
      rw [hevents, outlineAfter, hopen, scopesTo_of_leaf hm ho]
      simpa [linesAt, Event.line?, Event.replay, ho] using Outline.Takes.leaf ho
    · -- the operator is visited and then closed, and its own scope is open at both
      have hevents : (Turn.leave (op o)).events = [.op o, .after o] := by
        rw [Turn.events, closing, if_pos ho, List.singleton_append]
      have hopen : openScopes (Turn.fired first) = n.scopesTo π := openScopes_of_turns h hevents
      rw [hevents, outlineAfter, hopen, scopesTo_of_composite hm ho]
      simpa [linesAt, Event.line?, Event.replay, ho] using Outline.Takes.closes ho
  · have hlines : ([(π, Event.expr e)] : List (Place × Event)).flatMap n.linesAt = [] := rfl
    rw [Turn.events, closing, List.map_singleton, hlines, List.append_nil]
    exact .leavesExpr

/-- Every turn of a tree does what it may do to the outline after those before it. -/
lemma takes_outlineAfter (h : n.turns = first ++ (π, turn) :: rest) :
    Outline.Takes (n.scopesAbove π).length turn (n.outlineAfter first)
      (n.outlineAfter (first ++ [(π, turn)])) := by
  cases turn with
  | enter m => exact takes_enter h
  | leave m => exact takes_leave h

end Node

/-! ### Turns of the walk -/

namespace Visitors

variable {σ : Type} {s : Step} {n : Node} {depth : Nat} {e : RunError}

/-- A step that is refused leaves the state of the caller alone. -/
lemma perform_of_refusal (v : Visitors σ) (h : s.refusal config = some e)
    (t : Session σ Counters) :
    ∃ u, (v.perform config s).run t = (.error e, u) ∧ u.caller = t.caller := by
  rcases s with ⟨n, depth⟩ | n
  · rcases Option.or_eq_some_iff.1 h with hdepth | ⟨hdepth, hn⟩
    · obtain ⟨limit, hlimit, hlt, rfl⟩ := Config.refusal_eq_some_iff.1 hdepth
      exact ⟨_, RunM.bind_of_error (RunM.checkDepth_of_lt hlimit hlt t), rfl⟩
    · obtain ⟨d, hd, rfl⟩ := Node.refusal_eq_some_iff.1 hn
      simp only [perform, RunM.checkDepth_of_none hdepth, RunM.reach, RunM.checkNode, hd]
      exact ⟨_, rfl, rfl⟩
  · cases h

/-- A node that is not refused is noted, and its scope is opened. -/
lemma perform_enter_of_none (v : Visitors σ) (h : (Step.enter n depth).refusal config = none) :
    v.perform config (.enter n depth) = (do
      RunM.modifyOwn (·.reached depth)
      RunM.emit (.entered .walking n depth)
      match n with
      | .op o => if o.isComposite then RunM.notify v.before o else pure ()
      | .expr _ => pure ()) := by
  obtain ⟨hdepth, hn⟩ := Option.or_eq_none_iff.1 h
  have hdefect : n.defect? = none := Option.map_eq_none_iff.1 hn
  rw [perform, RunM.checkDepth_of_none hdepth, pure_bind]
  unfold RunM.reach
  rw [RunM.checkNode_of_none hdefect]
  rfl

end Visitors

namespace Outline

/-- A scope that is closed is open. -/
lemma Takes.depth_pos {depth : Nat} {o : Op} {before after : Outline}
    (h : Takes depth (.leave (.op o)) before after) (ho : o.isComposite = true) :
    0 < before.depth := by
  cases h with
  | leaf hleaf => cases hleaf.symm.trans ho
  | closes => exact Nat.succ_pos _

/-- The callbacks do to an outline what a turn may do to it. -/
lemma Takes.run {depth : Nat} {π : Place} {turn : Turn} {outline : Outline}
    {t : Session Outline Counters} (h : Takes depth turn t.caller outline)
    (hrefusal : (Turn.step 1 (π, turn)).refusal config = none) :
    ∃ u, (visitors.perform config (Turn.step 1 (π, turn))).run t = (.ok (), u) ∧
      u.caller = outline := by
  -- the constructors say what the outline before the turn looks like
  generalize hcaller : t.caller = before at h
  obtain ⟨_, own, log⟩ := t
  cases hcaller
  cases h with
  | @opens o lines ho =>
    rw [Turn.step] at hrefusal ⊢
    rw [Visitors.perform_enter_of_none _ hrefusal]
    simp only [if_pos ho]
    exact ⟨_, rfl, rfl⟩
  | @leaf o lines ho =>
    simp only [Turn.step, Visitors.perform, RunM.notify, RunM.close, visitors,
      if_neg (ne_true_of_eq_false ho)]
    exact ⟨_, rfl, rfl⟩
  | @closes o lines ho =>
    simp only [Turn.step, Visitors.perform, RunM.notify, RunM.close, visitors, if_pos ho]
    exact ⟨_, rfl, rfl⟩
  | @entersLeaf n outline hn =>
    rw [Turn.step] at hrefusal ⊢
    rw [Visitors.perform_enter_of_none _ hrefusal]
    cases n with
    | op o =>
      have ho : ¬ o.isComposite = true := ne_true_of_eq_false hn
      simp only [if_neg ho]
      exact ⟨_, rfl, rfl⟩
    | expr e => exact ⟨_, rfl, rfl⟩
  | leavesExpr => exact ⟨_, rfl, rfl⟩

end Outline

/-! ### The whole walk -/

namespace Op

variable {plan : Op} {π : Place} {turn : Turn} {first rest : List (Place × Turn)} {e : RunError}
  {outline : Outline} {t : Session Outline Counters}

/-- A turn is taken or refused, and for a turn that is refused nothing is written. -/
lemma perform_turn (config : Config) (hturns : (Node.op plan).turns = first ++ (π, turn) :: rest)
    (ht : t.caller = (Node.op plan).outlineAfter first) :
    (∃ u, (Outline.visitors.perform config (Turn.step 1 (π, turn))).run t = (.ok (), u) ∧
      u.caller = (Node.op plan).outlineAfter (first ++ [(π, turn)])) ∨
    ∃ e u, (Outline.visitors.perform config (Turn.step 1 (π, turn))).run t = (.error e, u) ∧
      u.caller = t.caller ∧ ∃ n, turn = .enter n ∧ n.Bad config (π.length + 1) e := by
  rcases hrefusal : (Turn.step 1 (π, turn)).refusal config with _ | e
  · have htakes := Node.takes_outlineAfter hturns
    rw [← ht] at htakes
    exact .inl (htakes.run hrefusal)
  · obtain ⟨u, hrun, hu⟩ := Outline.visitors.perform_of_refusal hrefusal t
    exact .inr ⟨e, u, hrun, hu, Node.refusal_step.1 hrefusal⟩

/-- As long as no turn is refused, the walk writes the outline of its turns. -/
lemma caller_eq_outlineAfter (hturns : (Node.op plan).turns = first ++ rest)
    (hrun : (forM first fun x => Outline.visitors.perform config (Turn.step 1 x)).run
      ⟨{}, {}, #[]⟩ = (.ok (), t)) :
    t.caller = (Node.op plan).outlineAfter first := by
  -- from the end, since what a turn does depends on the turns before it
  induction first using List.reverseRecOn generalizing rest t with
  | nil =>
    cases hrun
    rfl
  | append_singleton first x ih =>
    rw [List.append_assoc, List.singleton_append] at hturns
    rw [List.forM_append] at hrun
    obtain ⟨_, v, hfirst, hlast⟩ := RunM.ok_of_bind hrun
    rw [List.forM_cons, List.forM_nil, bind_pure_unit] at hlast
    rcases perform_turn config hturns (ih hturns hfirst) with ⟨u, hu, hcaller⟩ | ⟨e, u, hu, -⟩
    · cases hlast.symm.trans hu
      exact hcaller
    · cases hlast.symm.trans hu

/-- A loop that is about to leave a composite operator has opened its scope. -/
lemma depth_pos_of_reaches {o : Op} {waiting : List Step} (ho : o.isComposite = true)
    (h : Reaches (Outline.visitors.perform config) ⟨[.enter (.op plan) 1], ⟨{}, {}, #[]⟩⟩
      ⟨.leave (.op o) :: waiting, t⟩) :
    0 < t.caller.depth := by
  obtain ⟨first, rest, hturns, hrest, hfirst⟩ := turns_of_reaches h
  rw [upcoming_cons] at hrest
  obtain ⟨⟨π, n | n⟩, rest, rfl, hstep, -⟩ := List.map_eq_cons_iff.1 hrest
  · cases hstep
  · cases hstep
    rw [caller_eq_outlineAfter hturns hfirst]
    exact (Node.takes_leave hturns).depth_pos ho

/-- The outline of a plan is what its turns write. -/
lemma exists_run_of_outline {result : Except RunError Unit}
    (h : plan.outline config = (result, outline)) :
    ∃ t : Session Outline Counters,
      (forM (Node.op plan).turns fun x => Outline.visitors.perform config (Turn.step 1 x)).run
        ⟨{}, {}, #[]⟩ = (result, t) ∧ t.caller = outline := by
  rw [Op.outline, Visitors.walk_op, Visitors.walkTree, Node.drain_turns] at h
  obtain ⟨hresult, houtline⟩ := Prod.mk.inj h
  exact ⟨_, Prod.ext hresult rfl, houtline⟩

/-- A plan that is walked to the end has its rendering as outline. -/
lemma outline_of_ok (h : plan.outline config = (.ok (), outline)) :
    outline = ⟨0, (Node.op plan).rendering 0⟩ := by
  obtain ⟨t, hrun, rfl⟩ := exists_run_of_outline h
  have hturns : (Node.op plan).turns = (Node.op plan).turns ++ [] := (List.append_nil _).symm
  rw [caller_eq_outlineAfter hturns hrun, Node.outlineAfter_turns]

/-- A walk that stops has written the first lines of the rendering, and stops at a bad node. -/
lemma outline_of_error (h : plan.outline config = (.error e, outline)) :
    outline.lines <+: (Node.op plan).rendering 0 ∧
      ∃ π n, (Node.op plan).at? π = some n ∧ n.Bad config (π.length + 1) e := by
  obtain ⟨t, hrun, rfl⟩ := exists_run_of_outline h
  obtain ⟨first, ⟨π, turn⟩, rest, _, u, hturns, hfirst, hlast⟩ :=
    (RunM.StopsAtFirst.forM _ _ _ _ _).1 hrun
  have hu := caller_eq_outlineAfter hturns hfirst
  -- the turn that fails was refused, so the lines are those of the turns before it
  rcases perform_turn config hturns hu with ⟨v, hv, -⟩ | ⟨e', v, hv, hcaller, n, rfl, hbad⟩
  · cases hlast.symm.trans hv
  · cases hlast.symm.trans hv
    have hn : (Node.op plan).at? π = some n :=
      Node.at?_of_mem_turns (.inl (hturns ▸ List.mem_append_cons_self))
    rw [hcaller, hu]
    exact ⟨Node.lines_outlineAfter_prefix hturns, π, n, hn, hbad⟩

/-- Without a bad node the outline of a plan is finished. -/
lemma outline_succeeds
    (h : ∀ π n e, (Node.op plan).at? π = some n → ¬ n.Bad config (π.length + 1) e) :
    (plan.outline config).1 = .ok () := by
  rcases hrun : plan.outline config with ⟨e | _, outline⟩
  · obtain ⟨-, π, n, hn, hbad⟩ := outline_of_error hrun
    exact absurd hbad (h π n e hn)
  · rfl

/-- Writing the outline of a plan opens and closes the scopes of its composite operators as they are
nested, whatever stands between them and wherever the walk stops. -/
theorem outline_renders_scopes (config : Config) (plan : Op) : plan.RendersScopes config where
  safe _ _ _ hreaches ho := depth_pos_of_reaches ho hreaches
  taken := by
    rintro π turn t u ⟨first, rest, hturns, hfirst⟩ hrun
    have ht := caller_eq_outlineAfter hturns hfirst
    rcases perform_turn config hturns ht with ⟨v, hv, hcaller⟩ | ⟨e, v, hv, -⟩
    · cases hrun.symm.trans hv
      rw [ht, hcaller]
      exact Node.takes_outlineAfter hturns
    · cases hrun.symm.trans hv
  refused := by
    rintro π turn t e u ⟨first, rest, hturns, hfirst⟩ hrun
    have ht := caller_eq_outlineAfter hturns hfirst
    rcases perform_turn config hturns ht with ⟨v, hv, -⟩ | ⟨e', v, hv, hcaller, hbad⟩
    · cases hrun.symm.trans hv
    · cases hrun.symm.trans hv
      exact ⟨hcaller, hbad⟩
  whole _ := outline_of_ok
  part _ _ := outline_of_error
  succeeds := outline_succeeds

/-- The rendering of `nested` has two scopes, one in the other, with a line in each. -/
lemma rendering_nested :
    (Node.op nested).rendering 0 =
      ["filter \x7b", "  distinct \x7b", "    (empty)", "  \x7d", "  (empty)", "\x7d"] := by
  have htext : empty.text = "(empty)" := by
    rw [text, Node.text_eq]
    decide
  have hempty (depth : Nat) :
      (Node.op empty).rendering depth = [Outline.indented depth "(empty)"] := by
    rw [Node.rendering_leaf rfl, htext]
  have hdistinct : (Node.op (distinct empty)).rendering 1 = _ := Node.rendering_composite rfl 1
  have hfilter : (Node.op nested).rendering 0 = _ := Node.rendering_composite rfl 0
  rw [hfilter]
  simp only [nested, parts, Expr.parts, List.map_cons, List.map_nil, List.flatMap_cons,
    List.flatMap_nil, List.append_nil, List.cons_append, List.nil_append, Node.rendering_expr,
    hdistinct, hempty]
  rfl

/-- The outline of a filter by an existence test, and what a limit leaves of it. -/
theorem nested_renders_scopes :
    nested.outline {} = (.ok (), ⟨0, (Node.op nested).rendering 0⟩) ∧
      (nested.outline ⟨some 3⟩).1 = .error (.tooDeep 3) ∧
      (nested.outline ⟨some 3⟩).2.lines <+:
        ["filter \x7b", "  distinct \x7b", "    (empty)", "  \x7d", "  (empty)", "\x7d"] := by
  have hwhole : (nested.outline {}).1 = .ok () := by
    rw [outline, Visitors.walk_op, (Visitors.walkTree_eq_visit _ _ _).1]
    rfl
  have hpart : (nested.outline ⟨some 3⟩).1 = .error (.tooDeep 3) := by
    rw [outline, Visitors.walk_op, (Visitors.walkTree_eq_visit _ _ _).1]
    rfl
  refine ⟨Prod.ext hwhole ?_, hpart, ?_⟩
  · exact (outline_renders_scopes {} nested).whole _ (Prod.ext hwhole rfl)
  · rw [← rendering_nested]
    exact ((outline_renders_scopes ⟨some 3⟩ nested).part _ _ (Prod.ext hpart rfl)).1

end Op

end QueryPlan
