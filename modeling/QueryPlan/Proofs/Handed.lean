import QueryPlan.Proofs.Frames
import QueryPlan.Proofs.Traces
import QueryPlan.Proofs.WellFormed

/-!
# What callbacks are handed

A callback that replaces nodes is handed a rebuilt node besides the old one. `Replacers.Faithful`
says what that is: the old node with what stands in the places of its parts by the calls so far
(`Replacers.Replacement`). Nothing is assumed of the callbacks. They may return nodes of any kind,
change their minds, and fail.
-/

namespace QueryPlan

variable {σ τ : Type}

/-- The event in which a node is handed to the callback of its sort. -/
def Node.event : Node → Event
  | op o => .op o
  | expr e => .expr e

/-- The node of its event is the node itself. -/
lemma Node.node_event (n : Node) : n.event.node = n := by
  cases n <;> rfl

namespace Replacers

/-- By some calls the node `a` stands in the place of a node: it was the answer to the call for that
node, or nobody hears of the node and it is the node over what stands in the places of its parts. -/
inductive Replacement (r : Replacers σ) (calls : Trace) : Place → Node → Node → Prop where
  | answered {π n a call} :
    (π, call) ∈ calls →
    call.event = n.event →
    call.answer = .ok (some a) →
    Replacement r calls π n a
  | kept {π n results} :
    r.hears n.event = false →
    n.branches.length = results.length →
    (∀ l p a, ((l, p), a) ∈ n.branches.zip results → Replacement r calls (π ++ [l]) p a) →
    Replacement r calls π n (n.over results)

/-- The node `rebuilt` is the node `old` at a place with other nodes in the places of its parts:
those that stand there by some calls. -/
structure Faithful (r : Replacers σ) (calls : Trace) (π : Place) (old rebuilt : Node) : Prop where
  frame : rebuilt.frame = old.frame
  length : ∀ a, (rebuilt.access a).length = (old.access a).length
  part : ∀ l p, old.partAt? l = some p →
    ∃ a, rebuilt.partAt? l = some a ∧ r.Replacement calls (π ++ [l]) p a

/-- A call for a node, after the `earlier` calls, is one for the node that stands at the place, and
it is handed a faithful copy without a defect. -/
def Handed (r : Replacers σ) (root : Node) (earlier : Trace) (π : Place) (call : Call) : Prop :=
  ∀ old, call.event = old.event →
    root.at? π = some old ∧
    ∃ rebuilt, call.rebuilt = some rebuilt ∧ r.Faithful earlier π old rebuilt ∧
      rebuilt.defect? = none

/-- The placed events of a tree at a place that somebody hears of. -/
def heard (r : Replacers σ) (π : Place) (n : Node) : List (Place × Event) :=
  (beneath π n.placed).filter fun x => r.hears x.2

variable {r : Replacers σ} {root n p a : Node} {π : Place} {calls earlier : Trace}
  {results : List Node}

/-- What stands in the place of a node by some calls stands there by more calls. -/
lemma Replacement.mono {more : Trace} (h : r.Replacement calls π n a) (hmore : calls ⊆ more) :
    r.Replacement more π n a := by
  induction h with
  | answered hmem hevent hanswer => exact .answered (hmore hmem) hevent hanswer
  | kept hears hlength _ ih => exact .kept hears hlength ih

/-- What is faithful by some calls is faithful by more calls. -/
lemma Faithful.mono {old rebuilt : Node} {more : Trace} (h : r.Faithful calls π old rebuilt)
    (hmore : calls ⊆ more) : r.Faithful more π old rebuilt where
  frame := h.frame
  length := h.length
  part l p hp := by
    obtain ⟨a, ha, hreplacement⟩ := h.part l p hp
    exact ⟨a, ha, hreplacement.mono hmore⟩

/-- If somebody hears of a node, what stands in its place was an answer. -/
lemma Replacement.exists_call (h : r.Replacement calls π n a) (hears : r.hears n.event = true) :
    ∃ call, (π, call) ∈ calls ∧ call.event = n.event ∧ call.answer = .ok (some a) := by
  cases h with
  | answered hmem hevent hanswer => exact ⟨_, hmem, hevent, hanswer⟩
  | kept hnone =>
    rw [hears] at hnone
    cases hnone

/-- One result for each branch of a node: what stands in its place, of the sort of the part. -/
abbrev Replacements (r : Replacers σ) (calls : Trace) (π : Place) (n : Node)
    (results : List Node) : Prop :=
  List.Forall₂ (fun b a => r.Replacement calls (π ++ [b.1]) b.2 a ∧ a.sort = b.2.sort) n.branches
    results

namespace Replacements

/-- Results that stand in the places of parts have the sorts of the parts. -/
lemma sorts (h : r.Replacements calls π n results) : Results n.parts results := by
  rw [← n.map_snd_branches, Results, List.forall₂_map_left_iff]
  exact h.imp fun _ _ => And.right

/-- If nobody hears of a node, it is itself replaced by the node over the results. -/
lemma kept (h : r.Replacements calls π n results) (hears : r.hears n.event = false) :
    r.Replacement calls π n (n.over results) := by
  obtain ⟨hlength, hparts⟩ := List.forall₂_iff_zip.1 h
  exact .kept hears hlength fun l p a hmem => (hparts hmem).1

/-- A node over such results is a faithful copy. -/
lemma faithful (h : r.Replacements calls π n results) :
    r.Faithful calls π n (n.over results) where
  frame := Node.frame_over h.sorts
  length := Node.length_access_over h.sorts
  part l p hp := by
    obtain ⟨a, ha, hreplacement, -⟩ := Node.exists_partAt?_over
      (R := fun l p a => r.Replacement calls (π ++ [l]) p a ∧ a.sort = p.sort)
      (fun _ _ _ => And.right) h hp
    exact ⟨a, ha, hreplacement⟩

end Replacements

/-! ### Traces of runs -/

/-- A `before` hook is handed no node to replace. -/
lemma handed_before (o : Op) (answer : Except RunError (Option Node)) :
    r.Handed root earlier π ⟨.before o, none, answer⟩ := by
  intro old h
  cases old <;> cases h

/-- An `after` hook is handed no node to replace. -/
lemma handed_after (o : Op) (answer : Except RunError (Option Node)) :
    r.Handed root earlier π ⟨.after o, none, answer⟩ := by
  intro old h
  cases old <;> cases h

/-- A callback that is handed a faithful copy. -/
lemma handed_of_faithful {rebuilt : Node} (hn : root.at? π = some n)
    (h : r.Faithful earlier π n rebuilt) (hsound : rebuilt.defect? = none)
    (answer : Except RunError (Option Node)) :
    r.Handed root earlier π ⟨n.event, some rebuilt, answer⟩ := by
  intro old hold
  have hnode := congrArg Event.node hold
  rw [Node.node_event, Node.node_event] at hnode
  cases hnode
  exact ⟨hn, rebuilt, rfl, h, hsound⟩

/-- The answer to the call for a node stands in its place, and so does a node that is kept. -/
lemma answer_traces {α : Type} (event : α → Event) (node : α → Node)
    (c : Option (α → α → CallerM σ α)) (old : α) {rebuilt : α}
    (hevent : event old = (node old).event) (hears : r.hears (event old) = c.isSome)
    (hn : root.at? π = some (node old)) (h : r.Faithful earlier π (node old) (node rebuilt))
    (hsound : (node rebuilt).defect? = none)
    (hkept : r.hears (node old).event = false →
      r.Replacement earlier π (node old) (node rebuilt)) :
    (answer
      (c.map fun c old rebuilt =>
        CallerM.recorded (event old) (some (node rebuilt)) (fun a => some (node a))
          (c old rebuilt))
      old rebuilt : RunM (Recorded σ) τ α).Traces (r.Handed root) earlier
        (([event old].filter r.hears).map (π, ·)) fun calls a =>
          r.Replacement calls π (node old) (node a) := by
  cases c with
  | none =>
    rw [List.filter_cons_of_neg (ne_true_of_eq_false hears)]
    exact .pure (hkept (hevent ▸ hears))
  | some c =>
    rw [List.filter_cons_of_pos hears]
    refine RunM.Traces.call (fun answer => ?_) fun a => ?_
    · rw [hevent]
      exact handed_of_faithful hn h hsound answer
    · exact .answered (List.mem_append_right _ (.head _)) hevent rfl

/-- Leaving a node over what stands in the places of its parts. -/
lemma finish_traces (hn : root.at? π = some n) (hdefect : n.defect? = none)
    (h : r.Replacements earlier π n results) :
    (r.recorded.finish n results : RunM (Recorded σ) τ Node).Traces (r.Handed root) earlier
      ((n.closing.filter r.hears).map (π, ·)) fun calls a => r.Replacement calls π n a := by
  cases n with
  | op o =>
    refine (RunM.Traces.checkNode _).bind_silent fun _ hsound => ?_
    rw [Node.closing, List.filter_append, List.map_append]
    have hanswer := answer_traces (τ := τ) .op .op r.onOp o rfl rfl hn h.faithful hsound h.kept
    refine hanswer.bind fun a trace ha => ?_
    rw [← List.append_nil (List.map _ _)]
    refine (RunM.Traces.close r.toHooks r.onOp.isSome r.onExpr.isSome o handed_after).bind ?_
    intro _ more _
    exact .pure (ha.mono (List.subset_append_left _ _))
  | expr e =>
    have hsound : ((Node.expr e).over results).defect? = none := Expr.defect?_over h.sorts hdefect
    show RunM.Traces _ _ _ (([Event.expr e].filter r.hears).map (π, ·)) _
    rw [← List.append_nil (List.map _ _)]
    exact (answer_traces .expr .expr r.onExpr e rfl rfl hn h.faithful hsound h.kept).bind
      fun a trace ha => .pure ha

/-- The events of a node that are heard are around those of its parts. -/
lemma heard_eq (r : Replacers σ) (π : Place) (n : Node) :
    r.heard π n =
      (n.opening.filter r.hears).map (π, ·) ++
        (n.branches.flatMap (fun b => r.heard (π ++ [b.1]) b.2) ++
          (n.closing.filter r.hears).map (π, ·)) := by
  have hown (events : List Event) :
      (beneath π (events.map (([] : Place), ·))).filter (fun x => r.hears x.2) =
        (events.filter r.hears).map (π, ·) := by
    simp [beneath, List.filter_map, Function.comp_def]
  rw [heard, Node.placed, Node.tour_eq, beneath_append, beneath_append, List.filter_append,
    List.filter_append, hown, hown, beneath_flatMap, List.filter_flatMap, List.append_assoc]
  simp only [beneath_beneath, heard, Node.placed]

/-- At the root the events are those of the tree that somebody hears of. -/
lemma heard_nil (r : Replacers σ) (n : Node) :
    r.heard [] n = n.placed.filter fun x => r.hears x.2 := by
  simp [heard, beneath]

/-- Going through the parts of a node one after the other. -/
lemma parts_traces {config : Config} {depth : Nat}
    (h : ∀ l p, n.partAt? l = some p → ∀ earlier,
      (r.recorded.rewrite config depth p : RunM (Recorded σ) τ Node).Traces (r.Handed root) earlier
        (r.heard (π ++ [l]) p) fun calls a => r.Replacement calls (π ++ [l]) p a)
    (earlier : Trace) :
    (n.parts.mapM (r.recorded.rewrite config depth) : RunM (Recorded σ) τ (List Node)).Traces
      (r.Handed root) earlier (n.branches.flatMap fun b => r.heard (π ++ [b.1]) b.2)
        fun calls => r.Replacements calls π n := by
  rw [← n.map_snd_branches, List.mapM_map]
  refine RunM.Traces.mapM (fun calls more b a hb => ?_) fun b hb earlier => ?_
  · exact ⟨hb.1.mono (List.subset_append_left _ _), hb.2⟩
  · exact (h b.1 b.2 (Node.mem_branches.1 hb) earlier).and_ensures
      (rewrite_ensures config r.recorded depth b.2)

/-- Going through a tree at a place, with any calls before. -/
lemma rewrite_traces (config : Config) (hn : root.at? π = some n) (depth : Nat) (earlier : Trace) :
    (r.recorded.rewrite config depth n : RunM (Recorded σ) τ Node).Traces (r.Handed root) earlier
      (r.heard π n) fun calls a => r.Replacement calls π n a := by
  induction n using Node.inductionOnParts generalizing π depth earlier with
  | step n ih =>
    rw [rewrite_eq, heard_eq]
    refine (RunM.Traces.checkDepth config depth).bind_silent fun _ _ => ?_
    refine (RunM.Traces.reach _ r.toHooks r.onOp.isSome r.onExpr.isSome n depth
      handed_before).bind fun _ opened hdefect => ?_
    refine (parts_traces (fun l p hp earlier => ?_) _).bind fun results trace hresults => ?_
    · have hmem := Node.mem_parts_of_mem_branches (Node.mem_branches.2 hp)
      exact ih p hmem (Node.at?_concat hn hp) (depth + 1) earlier
    · exact finish_traces hn hdefect hresults

/-- A run on a tree. -/
lemma tree_traces (config : Config) (r : Replacers σ) (hn : n.Distinct) :
    (r.recorded.tree config n : RunM (Recorded σ) τ Node).Traces (r.Handed n) []
      (n.placed.filter fun x => r.hears x.2) fun calls a => r.Replacement calls [] n a := by
  rw [tree_eq config r.recorded hn, ← heard_nil]
  exact rewrite_traces config n.at?_nil 1 []

/-- Every call of a run that replaces the nodes of a root, whatever the callbacks do.

The trees that are begun are the first ones of the root, and the calls for each of them go along its
schedule without coming twice to one event. A call for a node is handed that node together with a
faithful copy: the old node with what stands, by the calls before, in the places of its parts. -/
theorem calls_handed_faithful (config : Config) (r : Replacers σ) {root : Root}
    (h : root.Distinct) (s : Session (Recorded σ) τ) :
    ∃ begun : List (Node × Trace),
      ((r.recorded.replace config root).run s).2.caller.calls =
        s.caller.calls ++ begun.flatMap (fun x => x.2.map Prod.snd) ∧
      begun.map Prod.fst <+: root.trees ∧
      ∀ n trace, (n, trace) ∈ begun →
        trace.events <+: n.placed.filter (fun x => r.hears x.2) ∧ trace.events.Nodup ∧
        trace.Each (r.Handed n) [] := by
  obtain ⟨begun, hcalls, hprefix, hbegun⟩ :=
    RunM.Traces.mapM_begun (fun n hn => tree_traces config r (h.2 n hn)) s
  refine ⟨begun, ?_, hprefix, fun n trace hmem => ?_⟩
  · rw [replace_eq_trees config r.recorded h, RunM.run_bind_pure, hcalls]
  · obtain ⟨hevents, heach⟩ := hbegun n trace hmem
    exact ⟨hevents, (n.nodup_placed.filter _).sublist hevents.sublist, heach⟩

/-- When a count over a table is retargeted, the group is handed over with the new table in it. -/
theorem retarget_countedBy_handed_faithful :
    let root := Root.op (.countedBy ⟨"k"⟩ "T")
    let r := retargetScans "T" "U"
    let rebuilt := Node.op (.countedBy ⟨"k"⟩ "U")
    root.Distinct ∧
      ∃ earlier π, r.Faithful earlier π (.op (.countedBy ⟨"k"⟩ "T")) rebuilt := by
  intro root r rebuilt
  have hroot : root.Distinct := Root.distinct_op (Op.distinct_countedBy _ _)
  obtain ⟨begun, hcalls, -, hbegun⟩ :=
    calls_handed_faithful {} r hroot (⟨⟨(), []⟩, (), #[]⟩ : Session _ Unit)
  have hrun : ((r.recorded.replace {} root).run
      (⟨⟨(), []⟩, (), #[]⟩ : Session _ Unit)).2.caller.calls =
        [⟨.op (.scan "T" none), some (.op (.scan "T" none)), .ok (some (.op (.scan "U" none)))⟩,
          ⟨.op (.countedBy ⟨"k"⟩ "T"), some rebuilt, .ok (some rebuilt)⟩] := by
    simp only [root, replace, op, drain, Step.follow, Node.schedule, Node.parts, Op.parts,
      Op.countedBy, Expr.parts, Bindings.values, List.map_cons, List.map_nil, List.cons_append,
      List.nil_append]
    rfl
  rw [hrun, List.nil_append] at hcalls
  have hmem : (⟨.op (.countedBy ⟨"k"⟩ "T"), some rebuilt, .ok (some rebuilt)⟩ : Call) ∈
      begun.flatMap (fun x => x.2.map Prod.snd) := hcalls ▸ .tail _ (.head _)
  obtain ⟨⟨n, trace⟩, hn, hmem⟩ := List.mem_flatMap.1 hmem
  obtain ⟨⟨π, call⟩, htrace, rfl⟩ := List.mem_map.1 hmem
  obtain ⟨earlier, later, hsplit⟩ := List.append_of_mem htrace
  obtain ⟨-, _, hrebuilt, hfaithful, -⟩ :=
    (hbegun n trace hn).2.2 earlier π _ later hsplit (.op (.countedBy ⟨"k"⟩ "T")) rfl
  cases hrebuilt
  exact ⟨hroot, earlier, π, hfaithful⟩

end Replacers

end QueryPlan
