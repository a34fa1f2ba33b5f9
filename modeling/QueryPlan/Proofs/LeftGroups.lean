import QueryPlan.Proofs.Arrivals
import QueryPlan.Proofs.RewriteAt

/-!
# Groups that are left

A node is checked when a run enters it, and an operator once more when it is rebuilt. That second
check only matters for groups, as an expression that stood among the aggregates of a group may have
been replaced by now. `Replacers.group_left` says what happens where a run leaves a group: if all
its aggregates were left aggregates, the callback for operators is next; otherwise the run ends
without another call, and the error names the first binding that is no aggregate any more.

Only the answer to the call for that very expression can be the reason. Nothing that is put among
the keys or below an aggregate is.
-/

namespace QueryPlan

variable {σ τ : Type}

namespace Replacers

variable {config : Config} {r : Replacers σ} {root : Root} {n : Node} {π : Place}
  {waiting : List Step} {step : Step}

/-! ### Where a run has come to -/

/-- A run that replaces the nodes of a root from the session `s` has come to the tree `n`, from the
session `u`, and in it to the state `L` of the loop. -/
structure ComesTo (config : Config) (r : Replacers σ) (root : Root) (s : Session σ τ) (n : Node)
    (u : Session σ τ) (L : Loop σ Rebuilt) : Prop where
  begun : ∃ done later results, root.trees = done ++ n :: later ∧
    (done.mapM (r.tree config)).run s = (.ok results, u)
  reaches : Reaches (r.perform config) ⟨[.enter n 1], { u with own := {} }⟩ L

/-- The node that a loop is run over is a tree of the root. -/
lemma ComesTo.mem_trees {s u : Session σ τ} {L : Loop σ Rebuilt}
    (h : ComesTo config r root s n u L) : n ∈ root.trees := by
  obtain ⟨done, later, _, htrees, -⟩ := h.begun
  exact htrees ▸ List.mem_append_cons_self

/-- The run on a tree goes on from each state that it reaches. -/
lemma tree_run_of_reaches {u : Session σ τ} {L : Loop σ Rebuilt}
    (h : Reaches (r.perform config) ⟨[.enter n 1], { u with own := {} }⟩ L) :
    (r.tree config n).run u =
      let ended := (drain (r.perform config) L.waiting >>= fun _ => gather (.top n)).run L.session
      (ended.1, { ended.2 with own := u.own }) := by
  have hrun := RunM.run_bind_congr (f := fun _ => gather (.top n)) (drain_of_reaches h)
  rw [tree_eq_within, RunM.run_within, hrun]

section

variable {s u : Session (Recorded σ) τ} {t v : Session (Recorded σ) Rebuilt}

/-- The whole run goes on with the tree that it has come to. -/
lemma ComesTo.replace_run {L : Loop (Recorded σ) Rebuilt} (hroot : root.Distinct)
    (h : r.recorded.ComesTo config root s n u L) :
    ∃ k : Node → RunM (Recorded σ) τ Root, (∀ a, (k a).StopsWith fun _ => True) ∧
      (r.recorded.replace config root).run s = (r.recorded.tree config n >>= k).run u := by
  obtain ⟨done, later, results, htrees, hdone⟩ := h.begun
  refine ⟨fun a => later.mapM (r.recorded.tree config) >>= fun as =>
    pure (root.over (results ++ a :: as)), fun a => ?_, ?_⟩
  · refine (RunM.StopsWith.mapM fun m hm => ?_).bind fun _ => .pure _
    have hmem : m ∈ root.trees := htrees ▸ List.mem_append_right _ (.tail _ hm)
    exact (tree_stopsWith config r (hroot.2 m hmem)).mono fun _ _ => trivial
  · rw [replace_eq_trees config r.recorded hroot, htrees, List.mapM_append]
    simp only [bind_assoc]
    rw [RunM.bind_of_ok hdone, List.mapM_cons]
    simp only [bind_assoc, pure_bind]

/-- Whatever steps are waiting, their loop has a course. -/
lemma drain_stopsWith (config : Config) (r : Replacers σ) (waiting : List Step) :
    (drain (r.recorded.perform config) waiting).StopsWith fun _ => True := by
  induction waiting using drain.induct with
  | case1 =>
    rw [drain]
    exact .pure ()
  | case2 step waiting ih =>
    rw [drain]
    refine RunM.StopsWith.bind (fun s => ?_) fun _ => ih
    exact ⟨_, r.perform_follows config step s, fun _ _ => trivial⟩

/-- What the next step calls is called in the whole run. -/
lemma ComesTo.calls_prefix (hroot : root.Distinct)
    (h : r.recorded.ComesTo config root s n u ⟨step :: waiting, t⟩) :
    ((r.recorded.perform config step).run t).2.caller.calls <+:
      ((r.recorded.replace config root).run s).2.caller.calls := by
  obtain ⟨k, hk, hrun⟩ := h.replace_run hroot
  have hdrain : ((r.recorded.perform config step).run t).2.caller.calls <+:
      ((drain (r.recorded.perform config) (step :: waiting)).run t).2.caller.calls := by
    rw [drain]
    exact RunM.calls_prefix_bind (fun _ => drain_stopsWith config r _) _ t
  have htree : ((drain (r.recorded.perform config) (step :: waiting)).run t).2.caller.calls <+:
      ((r.recorded.tree config n).run u).2.caller.calls := by
    rw [tree_run_of_reaches h.reaches]
    exact RunM.calls_prefix_bind (fun _ => .gather _) _ t
  rw [hrun]
  exact (hdrain.trans htree).trans (RunM.calls_prefix_bind hk _ u)

/-- If the next step fails, so does the whole run, and nothing is called after that. -/
lemma ComesTo.replace_of_error {e : RunError} (hroot : root.Distinct)
    (h : r.recorded.ComesTo config root s n u ⟨step :: waiting, t⟩)
    (hstep : (r.recorded.perform config step).run t = (.error e, v)) :
    ((r.recorded.replace config root).run s).1 = .error e ∧
      ((r.recorded.replace config root).run s).2.caller = v.caller := by
  obtain ⟨k, -, hrun⟩ := h.replace_run hroot
  have hdrain : (drain (r.recorded.perform config) (step :: waiting)).run t = (.error e, v) := by
    rw [drain, RunM.bind_of_error hstep]
  have htree : (r.recorded.tree config n).run u = (.error e, { v with own := u.own }) := by
    rw [tree_run_of_reaches h.reaches, RunM.bind_of_error hdrain]
  rw [hrun, RunM.bind_of_error htree]
  exact ⟨rfl, rfl⟩

end

/-! ### Leaving an operator -/

variable {o : Op} {results : List Node} {trace : Trace} {e x : Expr} {v : Var}
  {keys keys' aggregates aggregates' : Bindings Expr} {input input' : Op}

/-- The callback for operators is handed an operator over its results, if that has no defect. -/
lemma finish_called (h : ((Node.op o).over results).defect? = none) (ho : r.onOp.isSome = true)
    (s : Session (Recorded σ) τ) :
    ∃ answer, s.caller.calls ++ [⟨.op o, some ((Node.op o).over results), answer⟩] <+:
      ((r.recorded.finish (.op o) results).run s).2.caller.calls := by
  have hcalled (rebuilt : Op) :
      ∃ result, ((answer r.recorded.onOp o rebuilt : RunM (Recorded σ) τ Op).run s).2.caller.calls =
        s.caller.calls ++ [⟨.op o, some (.op rebuilt), result⟩] := by
    obtain ⟨c, hc⟩ := Option.isSome_iff_exists.1 ho
    rw [recorded, hc]
    exact ⟨_, rfl⟩
  obtain ⟨result, hcalls⟩ := hcalled
    (o.over (results.filterMap Node.op?) (results.filterMap Node.expr?))
  refine ⟨result, ?_⟩
  have hclose (a : Op) : (do
      RunM.close r.recorded.toHooks o
      return Node.op a : RunM (Recorded σ) τ Node).StopsWith fun _ => True :=
    (RunM.StopsWith.of_follows fun _ => .close r.toHooks false false o).bind fun _ => .pure _
  rw [finish_op h, Node.over, ← hcalls]
  exact RunM.calls_prefix_bind hclose _ s

/-- Where a run leaves an operator, it goes on with the callback for operators, unless the operator
has a defect over its results; then the run ends. -/
lemma ComesTo.left_op (hroot : root.Distinct) {s u : Session (Recorded σ) τ}
    {t : Session (Recorded σ) Rebuilt}
    (h : r.recorded.ComesTo config root s n u ⟨.leave (.op o) :: waiting, t⟩) :
    let ended := (r.recorded.replace config root).run s
    ∃ π trace results, r.Leaves n π (.op o) trace results ∧
      t.caller.calls = u.caller.calls ++ trace.map Prod.snd ∧
      (((Node.op o).over results).defect? = none → r.onOp.isSome = true →
        ∃ answer, t.caller.calls ++ [⟨.op o, some ((Node.op o).over results), answer⟩] <+:
          ended.2.caller.calls) ∧
      ∀ d, ((Node.op o).over results).defect? = some d →
        ended.1 = .error d.error ∧ ended.2.caller = t.caller := by
  intro ended
  have hn : n.Distinct := hroot.2 n h.mem_trees
  obtain ⟨π, trace, results, below, hleaves, hcalls, hown⟩ := leave_reached hn h.reaches
  obtain ⟨_, last, -, hreplaced, -⟩ := hleaves.replaced
  obtain ⟨_, hfired, -⟩ := hleaves.fired
  have ho : (Node.op o).Distinct := hn.within (Node.within_iff_at?.2 ⟨π, hfired.here⟩)
  have hstep : (r.recorded.perform config (.leave (.op o))).run t =
      (r.recorded.finish (.op o) results >>= fun a => RunM.modifyOwn (·.push a)).run
        { t with own := below } := by
    rw [← perform_leave config r.recorded ho hreplaced.sorts below t, ← hown]
  refine ⟨π, trace, results, hleaves, hcalls, fun hdefect hop => ?_, fun d hdefect => ?_⟩
  · obtain ⟨answer, hanswer⟩ := finish_called hdefect hop { t with own := below }
    have hpush (a : Node) : (RunM.modifyOwn (·.push a) :
        RunM (Recorded σ) Rebuilt Unit).StopsWith fun _ => True :=
      .of_follows fun _ => .modifyOwn _
    have hnext := hanswer.trans (RunM.calls_prefix_bind hpush _ _)
    rw [← hstep] at hnext
    exact ⟨answer, hnext.trans (h.calls_prefix hroot)⟩
  · rw [RunM.bind_of_error (finish_refused hdefect _)] at hstep
    obtain ⟨herror, hcaller⟩ := h.replace_of_error hroot hstep
    exact ⟨herror, hcaller⟩

/-! ### The aggregates of a group -/

/-- By the call at the place an aggregate was replaced by something else, although the callback was
handed an aggregate. -/
def Demoted (trace : Trace) (π : Place) (old new : Expr) : Prop :=
  ∃ call handed, (π, call) ∈ trace ∧ call.event = .expr old ∧ old.isAggregate = true ∧
    call.rebuilt = some (.expr handed) ∧ handed.isAggregate = true ∧
    call.answer = .ok (some (.expr new)) ∧ new.isAggregate = false

/-- What is no aggregate comes into the place of an aggregate by a call for it. -/
lemma Replacement.exists_call_of_not_aggregate
    (h : r.Replacement trace π (.expr x) (.expr e)) (hx : x.isAggregate = true)
    (he : e.isAggregate = false) :
    ∃ call, (π, call) ∈ trace ∧ call.event = .expr x ∧ call.answer = .ok (some (.expr e)) := by
  generalize ha : Node.expr e = a at h
  cases h with
  | answered hmem hevent hanswer => exact ⟨_, hmem, hevent, ha ▸ hanswer⟩
  | kept =>
    cases ha
    rw [isAggregate_over, hx] at he
    cases he

/-- What has the frame of an aggregate is one. -/
lemma exists_aggregate_of_frame {m : Node} (h : m.frame = (Node.expr x).frame)
    (hx : x.isAggregate = true) : ∃ y, m = .expr y ∧ y.isAggregate = true := by
  rcases x with _ | _ | _ | ⟨f, once, arg⟩ | _
  case aggregate =>
    rcases m with o | y
    · cases o <;> cases h
    · cases y with
      | aggregate => exact ⟨_, rfl, rfl⟩
      | _ => cases h
  all_goals cases hx

/-- What a faithful copy of a group binds to a variable as an aggregate stands in the place of what
the group binds to it. -/
lemma Faithful.aggregate {i : Nat}
    (h : r.Faithful trace π (.op (.group keys aggregates input))
      (.op (.group keys' aggregates' input')))
    (hnew : aggregates'.entries[i]? = some (v, e)) :
    ∃ x, aggregates.entries[i]? = some (v, x) ∧
      r.Replacement trace (π ++ [⟨.exprs, keys.size + i⟩]) (.expr x) (.expr e) := by
  obtain ⟨hkeys, hvars⟩ := Frame.group.inj h.frame
  have hvar : aggregates.vars[i]? = some v := by
    rw [← hvars, Bindings.vars, List.getElem?_map, hnew]
    rfl
  rw [Bindings.vars, List.getElem?_map] at hvar
  obtain ⟨⟨v, x⟩, hold, rfl⟩ := Option.map_eq_some_iff.1 hvar
  have hsize : keys'.size = keys.size := by
    rw [Bindings.size, ← List.length_map Prod.fst, ← Bindings.vars, hkeys]
    exact List.length_map _
  obtain ⟨a, ha, hreplacement⟩ := h.part ⟨.exprs, keys.size + i⟩ (.expr x)
    (by rw [Node.partAt?_aggregate, hold]; rfl)
  rw [← hsize, Node.partAt?_aggregate, hnew] at ha
  cases ha
  exact ⟨x, hold, hreplacement⟩

/-- What a faithful copy of a sound group binds instead of an aggregate was an answer. -/
lemma Faithful.demoted {i : Nat}
    (h : r.Faithful trace π (.op (.group keys aggregates input))
      (.op (.group keys' aggregates' input')))
    (heach : trace.Each (r.Handed n) [])
    (hdefect : (Node.op (.group keys aggregates input)).defect? = none)
    (hnew : aggregates'.entries[i]? = some (v, e)) (he : e.isAggregate = false) :
    ∃ x, aggregates.entries[i]? = some (v, x) ∧
      Demoted trace (π ++ [⟨.exprs, keys.size + i⟩]) x e := by
  obtain ⟨x, hold, hreplacement⟩ := h.aggregate hnew
  have hx : x.isAggregate = true :=
    Node.defect?_group_eq_none_iff.1 hdefect x (List.mem_map_of_mem (List.mem_of_getElem? hold))
  obtain ⟨call, hmem, hevent, hanswer⟩ := hreplacement.exists_call_of_not_aggregate hx he
  obtain ⟨before, after, htrace⟩ := List.append_of_mem hmem
  obtain ⟨-, _, hrebuilt, hfaithful, -⟩ := heach before _ call after htrace (.expr x) hevent
  obtain ⟨handed, rfl, hhanded⟩ := exists_aggregate_of_frame hfaithful.frame hx
  exact ⟨x, hold, call, handed, hmem, hevent, hx, hrebuilt, hhanded, hanswer, he⟩

/-- What happens where a run leaves a group, whatever its callbacks do.

The hook before the group has been called and so has everybody who hears of what is below it, but
nobody who is to hear of the group itself, or of a node above it, when it is left. The group is
rebuilt over what stands in the places of its parts. If it still binds aggregates, the callback for
operators is called next. Otherwise the run fails there and then with the first binding that is no
aggregate, and the reason is the answer to the call for that very expression. -/
theorem group_left (hroot : root.Distinct) {s u : Session (Recorded σ) τ}
    {t : Session (Recorded σ) Rebuilt}
    (h : r.recorded.ComesTo config root s n u
      ⟨.leave (.op (.group keys aggregates input)) :: waiting, t⟩) :
    let old := Op.group keys aggregates input
    let ended := (r.recorded.replace config root).run s
    ∃ (π : Place) (fired : List (Place × Event)) (trace : Trace)
      (keys' aggregates' : Bindings Expr) (input' : Op),
      n.BeforeClosing π (.op old) fired ∧
      t.caller.calls = u.caller.calls ++ trace.map Prod.snd ∧
      trace.events = fired.filter (fun x => r.hears x.2) ∧
      r.Faithful trace π (.op old) (.op (.group keys' aggregates' input')) ∧
      ((∀ e ∈ aggregates'.values, e.isAggregate = true) → r.onOp.isSome = true →
        ∃ answer, t.caller.calls ++
          [⟨.op old, some (.op (.group keys' aggregates' input')), answer⟩] <+:
            ended.2.caller.calls) ∧
      ∀ first v e rest, aggregates'.entries = first ++ (v, e) :: rest →
        (∀ b ∈ first, b.2.isAggregate = true) → e.isAggregate = false →
          ended.1 = .error
            (.malformed "group" ("binding " ++ v.text ++ " is not an aggregate: " ++ e.text)) ∧
          ended.2.caller = t.caller ∧
          ∃ x, aggregates.entries[first.length]? = some (v, x) ∧
            Demoted trace (π ++ [⟨.exprs, keys.size + first.length⟩]) x e := by
  intro old ended
  obtain ⟨π, trace, results, hleaves, hcalls, hcalled, hrefused⟩ := h.left_op hroot
  obtain ⟨fired, hfired, hevents⟩ := hleaves.fired
  obtain ⟨before, last, rfl, hreplaced, heach⟩ := hleaves.replaced
  obtain ⟨keys', aggregates', input', hover⟩ : ∃ keys' aggregates' input',
      (Node.op old).over results = .op (.group keys' aggregates' input') := ⟨_, _, _, rfl⟩
  have hfaithful := hreplaced.faithful
  rw [hover] at hfaithful hcalled hrefused
  refine ⟨π, fired, before ++ last, keys', aggregates', input', hfired, hcalls, hevents,
    hfaithful.mono (List.subset_append_right _ _), fun haggregates => ?_, ?_⟩
  · exact hcalled (Node.defect?_group_eq_none_iff.2 haggregates)
  · intro first v e rest hentries hfirst he
    obtain ⟨herror, hcaller⟩ := hrefused _
      (Node.defect?_group_eq_some_iff.2 ⟨first, v, e, rest, hentries, hfirst, he, rfl⟩)
    have hnew : aggregates'.entries[first.length]? = some (v, e) := by
      rw [hentries, List.getElem?_append_right (Nat.le_refl _), Nat.sub_self]
      rfl
    obtain ⟨x, hx, call, handed, hmem, hdemoted⟩ :=
      hfaithful.demoted heach hleaves.sound hnew he
    refine ⟨herror, hcaller, x, hx, call, handed, ?_, hdemoted⟩
    exact List.mem_append_right _ hmem

/-- A group is left when its count has been replaced by a variable, and that is the end. -/
theorem countedBy_left :
    let plan := Op.countedBy ⟨"k"⟩ "T"
    let r := atCall 1 (.expr (.var ⟨"k"⟩))
    let s : Session (Recorded Nat) Unit := ⟨⟨0, []⟩, (), #[]⟩
    (Root.op plan).Distinct ∧
      (∃ t, r.recorded.ComesTo {} (.op plan) s (.op plan) s ⟨[.leave (.op plan)], t⟩) ∧
      ((r.recorded.replace {} (.op plan)).run s).1 =
        .error (.malformed "group" "binding ?count is not an aggregate: ?k") := by
  intro plan r s
  have hroot : (Root.op plan).Distinct := Root.distinct_op (Op.distinct_countedBy _ _)
  have hreaches : ∃ t, Reaches (r.recorded.perform {})
      ⟨[.enter (.op plan) 1], { s with own := {} }⟩ ⟨[.leave (.op plan)], t⟩ ∧
        t.caller.calls =
          [⟨.expr (.var ⟨"k"⟩), some (.expr (.var ⟨"k"⟩)), .ok (some (.expr (.var ⟨"k"⟩)))⟩,
            ⟨.expr (.aggregate .count false none), some (.expr (.aggregate .count false none)),
              .ok (some (.expr (.var ⟨"k"⟩)))⟩] := by
    exact ⟨_, .head ⟨rfl⟩ <| .head ⟨rfl⟩ <| .head ⟨rfl⟩ <| .head ⟨rfl⟩ <| .head ⟨rfl⟩ <|
      .head ⟨rfl⟩ <| .head ⟨rfl⟩ .refl, rfl⟩
  obtain ⟨t, hreach, hcalls⟩ := hreaches
  have hcomes : r.recorded.ComesTo {} (.op plan) s (.op plan) s ⟨[.leave (.op plan)], t⟩ :=
    ⟨⟨[], [], [], rfl, rfl⟩, hreach⟩
  refine ⟨hroot, ⟨t, hcomes⟩, ?_⟩
  obtain ⟨π, fired, trace, keys', aggregates', input', -, htrace, -, hfaithful, -, hrefused⟩ :=
    group_left hroot hcomes
  obtain ⟨⟨v, e⟩, hentries, rfl⟩ :=
    List.map_eq_singleton_iff.1 (Frame.group.inj hfaithful.frame).2
  -- what is bound now is the answer to the call for the count
  obtain ⟨_, hold, hreplacement⟩ :=
    hfaithful.aggregate (i := 0) (by rw [hentries]; rfl)
  cases hold
  obtain ⟨call, hmem, hevent, hanswer⟩ := hreplacement.exists_call rfl
  have hcall : call ∈ s.caller.calls ++ trace.map Prod.snd :=
    List.mem_append_right _ (List.mem_map_of_mem hmem)
  rw [← htrace, hcalls] at hcall
  have he : e = .var ⟨"k"⟩ := by
    rcases hcall with _ | ⟨_, _ | ⟨_, ⟨⟩⟩⟩
    · cases hevent
    · cases hanswer
      rfl
  subst he
  have htext : (Expr.var ⟨"k"⟩).text = "?k" := (Node.text_eq _).trans rfl
  have herror := (hrefused [] _ _ [] hentries (List.forall_mem_nil _) rfl).1
  rw [htext] at herror
  exact herror

end Replacers

end QueryPlan
