import QueryPlan.Proofs.ReplaceCourses

/-!
# One schedule for walks and for replacing

The events of a tree are fixed before any run (`Node.events`). What a walk and a run that replaces
nodes call are the first of these events, and all of them if the run succeeds (`Scheduled`): nothing
that callbacks do, and no node that they return, changes what comes next.

As long as no callback fails, both runs even stop at the same event with the same error. For that,
the groups that are rebuilt have to bind aggregates again (`Replacers.KeepsAggregates`); a group
that does not is refused by the one run and unseen by the other.
`Replacers.keepsAggregates_of_onExpr` gives the condition from what the callback for expressions
returns.
-/

namespace QueryPlan

variable {σ ρ τ α : Type}

/-- How the calls of a run relate to the events of a tree. -/
structure Scheduled (events : List Event) (result : Except RunError α) (calls : List Call) :
    Prop where
  /-- The calls are for the first of the events. -/
  initial : calls.map (·.event) <+: events
  /-- They are for all of them if the run succeeds. -/
  whole : ∀ a, result = .ok a → calls.map (·.event) = events
  /-- A call that fails is the last one, and the run fails with its error. -/
  last : ∀ first call rest e, calls = first ++ call :: rest → call.answer = .error e →
    rest = [] ∧ result = .error e

/-- A run that succeeds has no failing call. -/
lemma Scheduled.succeeded {events : List Event} {result : Except RunError α} {calls : List Call}
    {a : α} (h : Scheduled events result calls) (hresult : result = .ok a) :
    ∀ call ∈ calls, call.Succeeded := by
  intro call hcall e he
  obtain ⟨first, rest, hcalls⟩ := List.append_of_mem hcall
  cases hresult.symm.trans (h.last first call rest e hcalls he).2

/-- How a run with a course ends if no callback fails. -/
def Course.outcome (c : Course) : Except RunError Unit :=
  match c.stop with
  | some e => .error e
  | none => .ok ()

/-- A run with a course among the events of a tree is scheduled. -/
lemma Course.Allows.scheduled {c : Course} {events : List Event} {result : Except RunError α}
    {calls : List Call} (h : c.Allows result calls) (hc : c.Of events) :
    Scheduled events result calls := by
  cases h with
  | ok hstop hevents hsucceeded =>
    refine ⟨hevents ▸ hc.initial, fun _ _ => hevents.trans (hc.whole hstop), ?_⟩
    rintro first call rest e rfl he
    exact absurd he (hsucceeded call (List.mem_append_right _ (.head _)) e)
  | stopped _ hevents hsucceeded =>
    refine ⟨hevents ▸ hc.initial, (fun _ h => nomatch h), ?_⟩
    rintro first call rest e rfl he
    exact absurd he (hsucceeded call (List.mem_append_right _ (.head _)) e)
  | @failed error before last hevents hsucceeded hlast =>
    refine ⟨hevents.trans hc.initial, (fun _ h => nomatch h), ?_⟩
    intro first call rest e hcalls he
    -- all calls before the final one succeeded, so the one that failed is the final one
    rcases List.eq_nil_or_concat rest with rfl | ⟨rest, final, rfl⟩
    · obtain ⟨-, hcall⟩ := List.append_inj' hcalls rfl
      cases hcall
      cases hlast.symm.trans he
      exact ⟨rfl, rfl⟩
    · have hsplit : before ++ [last] = (first ++ call :: rest) ++ [final] := by
        rw [hcalls, List.concat_eq_append, List.append_assoc, List.cons_append]
      obtain ⟨rfl, -⟩ := List.append_inj' hsplit rfl
      exact absurd he (hsucceeded call (List.mem_append_right _ (.head _)) e)

/-- If no call fails, a run with a course goes by it to the end. -/
lemma Course.Allows.of_succeeded {c : Course} {result : Except RunError α} {calls : List Call}
    (h : c.Allows result calls) (hcalls : ∀ call ∈ calls, call.Succeeded) :
    calls.map (·.event) = c.events ∧ result.map (fun _ => ()) = c.outcome := by
  cases h with
  | ok hstop hevents => exact ⟨hevents, by rw [outcome, hstop]; rfl⟩
  | stopped hstop hevents => exact ⟨hevents, by rw [outcome, hstop]; rfl⟩
  | failed _ _ hlast => exact absurd hlast (hcalls _ (List.mem_append_right _ (.head _)) _)

/-- If each step has a course among its events, they have one together. -/
lemma Courses.of_events {R : Step → Course → Prop} {hears : Event → Bool}
    (hR : ∀ s c, R s c → c.Of (s.events.filter hears)) {steps : List Step} {c : Course}
    (h : Courses R steps c) : c.Of ((steps.flatMap Step.events).filter hears) := by
  induction h with
  | nil => exact .done
  | cons hc _ ih =>
    rw [List.flatMap_cons, List.filter_append]
    exact (hR _ _ hc).andThen ih

/-- Steps have one course if each of them has only one. -/
lemma Courses.unique {R : Step → Course → Prop} (hR : ∀ s c d, R s c → R s d → c = d)
    {steps : List Step} {c d : Course} (hc : Courses R steps c) (hd : Courses R steps d) :
    c = d := by
  induction hc generalizing d with
  | nil =>
    cases hd
    rfl
  | cons hc _ ih =>
    cases hd with
    | cons hd hrest => rw [hR _ _ _ hc hd, ih hrest]

/-- A step fires the first of its events that are heard, and all of them unless it is stopped. -/
lemma Step.course_of (config : Config) (hears : Event → Bool) (s : Step) :
    (s.course config hears).Of (s.events.filter hears) := by
  cases s with
  | enter n depth =>
    exact (Course.Of.stopping _).andThen ((Course.Of.stopping _).andThen (.firing _))
  | leave n => exact .firing _

/-- A step that replaces fires the first of its events that are heard. -/
lemma Replacers.course_of (config : Config) (r : Replacers σ) (built : Rebuilt) (s : Step) :
    (r.course config built s).Of (s.events.filter r.hears) := by
  cases s with
  | enter n depth => exact Step.course_of config r.hears (.enter n depth)
  | leave n => exact (Course.Of.stopping _).andThen (.firing _)

/-! ### Walks -/

/-- There is a callback for every event. -/
def Visitors.Complete (v : Visitors σ) : Prop := ∀ e, v.hears e = true

/-- There is a callback for every event. -/
def Replacers.Complete (r : Replacers σ) : Prop := ∀ e, r.hears e = true

/-- A walk has the courses of the steps of its tree. -/
lemma Visitors.walkTree_follows (config : Config) (v : Visitors σ) (n : Node)
    (s : Session (Recorded σ) Counters) :
    ∃ c, Courses (fun s c => c = s.course config v.hears) (n.steps 1) c ∧
      (v.recorded.walkTree config n).Follows s c := by
  have hcourses := drain_follows (R := fun s c => c = s.course config v.hears) (fun s => ⟨_, rfl⟩)
    fun step _ t (_ : Reaches (v.recorded.perform config) ⟨[.enter n 1], s⟩ _) =>
      ⟨_, rfl, v.perform_follows config step t⟩
  rwa [upcoming, List.flatMap_singleton, Step.steps] at hcourses

/-! ### Replacing -/

namespace Replacers

/-- Whenever a run on a tree rebuilds a group, the rebuilt group binds aggregates. -/
def KeepsAggregates (config : Config) (r : Replacers σ) (n : Node) (s : Session σ τ) : Prop :=
  ∀ keys aggregates input rest t keys' aggregates' input' built,
    Reaches (r.perform config) ⟨[.enter n 1], { s with own := {} }⟩
      ⟨.leave (.op (.group keys aggregates input)) :: rest, t⟩ →
    (Op.group keys aggregates input).rebuild.run t.own =
      .ok (.group keys' aggregates' input', built) →
    ∀ e ∈ aggregates'.values, e.isAggregate = true

variable {config : Config} {r : Replacers σ} {n : Node}

/-- The callback for expressions returns an aggregate when it is handed one. -/
def ReturnsAggregates (r : Replacers σ) : Prop :=
  ∀ c, r.onExpr = some c → ∀ old rebuilt a s s', (c old rebuilt).run s = (.ok a, s') →
    rebuilt.isAggregate = true → a.isAggregate = true

/-- An aggregate with other parts is an aggregate, and nothing else becomes one. -/
lemma isAggregate_over (e : Expr) (os : List Op) (es : List Expr) :
    (e.over os es).isAggregate = e.isAggregate := by
  rcases e with v | v | ⟨f, args⟩ | ⟨f, distinct, _ | arg⟩ | ⟨negated, op⟩
  all_goals rfl

/-- What stands in the place of an aggregate is an aggregate. -/
lemma ReturnsAggregates.result (h : r.ReturnsAggregates) {e a : Expr} (he : e.isAggregate = true)
    (hresult : r.Result (.expr e) (.expr a)) : a.isAggregate = true := by
  cases hresult with
  | @finish _ results _ s t _ hrun =>
    obtain ⟨b, u, hanswer, hpure⟩ := RunM.ok_of_bind hrun
    cases hpure
    have hover := isAggregate_over e (results.filterMap Node.op?) (results.filterMap Node.expr?)
    rw [he] at hover
    rcases hc : r.onExpr with _ | c
    · rw [hc] at hanswer
      cases hanswer
      exact hover
    · rw [hc] at hanswer
      exact h c hc _ _ a s.caller _ (Prod.ext (congrArg (·.1) hanswer) rfl) hover

/-- What stands in the places of aggregates are aggregates. -/
lemma ReturnsAggregates.results (h : r.ReturnsAggregates) {es as : List Expr}
    (hresults : List.Forall₂ (fun e a => r.Result (.expr e) (.expr a)) es as)
    (hes : ∀ e ∈ es, e.isAggregate = true) : ∀ a ∈ as, a.isAggregate = true := by
  induction hresults with
  | nil => exact List.forall_mem_nil _
  | cons ha _ ih =>
    obtain ⟨he, hes⟩ := List.forall_mem_cons.1 hes
    exact List.forall_mem_cons.2 ⟨h.result he ha, ih hes⟩

/-- A group has no defect when it binds aggregates. -/
lemma defect?_group_eq_none_iff (keys aggregates : Bindings Expr) (input : Op) :
    (Op.group keys aggregates input).defect? = none ↔
      ∀ e ∈ aggregates.values, e.isAggregate = true := by
  rw [Op.defect?, Option.map_eq_none_iff, List.find?_eq_none, Bindings.values,
    List.forall_mem_map]
  simp only [Bool.not_eq_true, Bool.not_eq_false']

/-- A group that binds aggregates among its aggregates is not refused. -/
lemma refusal_group {keys aggregates : Bindings Expr} {input : Op}
    (h : ∀ e ∈ aggregates.values, e.isAggregate = true) :
    (Node.op (.group keys aggregates input)).refusal = none :=
  congrArg (Option.map Defect.error) ((defect?_group_eq_none_iff keys aggregates input).2 h)

/-- If the callback for expressions returns aggregates for aggregates, groups keep binding them:
they were entered without a defect. -/
theorem keepsAggregates_of_onExpr (hr : r.ReturnsAggregates) (hn : n.Distinct) (s : Session σ τ) :
    r.KeepsAggregates config n s := by
  intro keys aggregates input rest t keys' aggregates' input' built h hrebuild
  have hstacked := stacked_of_reaches hn rfl h
  generalize t.own = own at hstacked hrebuild
  cases hstacked with
  | @leave _ _ below results hm hdefect hresults =>
    rw [Op.rebuild_pushAll (hn.within hm.within) (results_of_forall₂ hresults)] at hrebuild
    cases hrebuild
    have hexprs := List.forall₂_drop keys.size (forall₂_exprs (fun _ _ => Result.sort_eq) hresults)
    have hsize : keys.values.length = keys.size := by rw [Bindings.values, List.length_map]; rfl
    have hparts : ((Op.group keys aggregates input).parts.filterMap Node.expr?).drop keys.size =
        aggregates.values := by
      rw [Op.filterMap_expr?_parts, Op.exprs, List.drop_left' hsize]
    rw [Node.parts, hparts] at hexprs
    have haggregates := (defect?_group_eq_none_iff keys aggregates input).1 hdefect
    intro e he
    obtain ⟨p, hp, rfl⟩ := List.mem_map.1 he
    exact hr.results hexprs haggregates _ (List.of_mem_zip hp).2

/-- If groups keep binding aggregates, every step has the same course as in a walk. -/
lemma course_eq {s : Session σ τ} (hn : n.Distinct) (hkeeps : r.KeepsAggregates config n s)
    {step : Step} {rest : List Step} {t : Session σ Rebuilt}
    (h : Reaches (r.perform config) ⟨[.enter n 1], { s with own := {} }⟩ ⟨step :: rest, t⟩) :
    r.course config t.own step = step.course config r.hears := by
  have hstacked := stacked_of_reaches hn rfl h
  generalize hown : t.own = built at hstacked
  cases hstacked with
  | enter => rfl
  | @leave m _ below results hm _ hresults =>
    have hdistinct := hn.within hm.within
    have hr := results_of_forall₂ hresults
    have hrefusal : refusal m (below.pushAll results) = none := by
      cases m with
      | op o =>
        rw [refusal_op hdistinct hr]
        cases o with
        | group keys aggregates input =>
          have hrebuild := Op.rebuild_pushAll hdistinct hr below
          rw [← hown] at hrebuild
          exact refusal_group (hkeeps _ _ _ _ _ _ _ _ _ h hrebuild)
        | _ => rfl
      | expr e => exact refusal_expr hr below
    rw [course, hrefusal]
    rfl

/-- The run on a tree has a course among the events of the tree that are heard. -/
lemma tree_follows_of (config : Config) (r : Replacers σ) (n : Node) (s : Session (Recorded σ) τ) :
    ∃ c, c.Of (((n.steps 1).flatMap Step.events).filter r.hears) ∧
      (r.recorded.tree config n : RunM (Recorded σ) τ Node).Follows s c := by
  obtain ⟨c, stop, hc, -, hfollows⟩ := tree_follows (s := s)
    (R := fun s c => c.Of (s.events.filter r.hears)) (fun s => ⟨_, .firing _⟩)
    fun step _ t _ => r.course_of config t.own step
  refine ⟨_, ?_, hfollows⟩
  rw [← List.append_nil (List.filter _ _)]
  exact (hc.of_events fun _ _ h => h).andThen (.stopping stop)

/-- If groups keep binding aggregates, the run on a tree has the course of a walk. -/
lemma tree_follows_walk {s : Session (Recorded σ) τ} (hn : n.Distinct)
    (hkeeps : r.KeepsAggregates config n s.forget) :
    ∃ c, Courses (fun s c => c = s.course config r.hears) (n.steps 1) c ∧
      (r.recorded.tree config n : RunM (Recorded σ) τ Node).Follows s c := by
  obtain ⟨c, stop, hc, hstop, hfollows⟩ := tree_follows (s := s)
    (R := fun s c => c = s.course config r.hears) (fun s => ⟨_, rfl⟩)
    fun step rest t ht => course_eq hn hkeeps ht
  rw [hstop hn] at hfollows
  exact ⟨c, hc, by rwa [← Course.andThen_done c]⟩

end Replacers

/-- A run that follows the course of some events calls for the first ones of them. -/
lemma RunM.Follows.scheduled {x : RunM (Recorded σ) τ α} {y : RunM σ τ α} {c : Course}
    {events : List Event} {s : Session (Recorded σ) τ} (h : x.Follows s c) (hxy : RunM.Records x y)
    (hc : c.Of events) :
    ∃ calls, (x.run s).2.caller.calls = s.caller.calls ++ calls ∧
      Scheduled events (y.run s.forget).1 calls := by
  obtain ⟨calls, hcalls, hallows⟩ := h
  rw [hxy s]
  exact ⟨calls, hcalls, hallows.scheduled hc⟩

/-- A run without a failing call fires all of its course and ends as the course does. -/
lemma RunM.Follows.of_succeeded {x : RunM (Recorded σ) τ α} {y : RunM σ τ α} {c : Course}
    {s : Session (Recorded σ) τ} {calls : List Call} (h : x.Follows s c)
    (hxy : RunM.Records x y) (hcalls : (x.run s).2.caller.calls = s.caller.calls ++ calls)
    (hsucceeded : ∀ call ∈ calls, call.Succeeded) :
    calls.map (·.event) = c.events ∧ (y.run s.forget).1.map (fun _ => ()) = c.outcome := by
  obtain ⟨calls', hcalls', hallows⟩ := h
  cases List.append_cancel_left (hcalls.symm.trans hcalls')
  rw [hxy s]
  exact hallows.of_succeeded hsucceeded

/-- A walk is scheduled by the events of the tree that the visitors hear of. -/
lemma Visitors.walkTree_scheduled (config : Config) (v : Visitors σ) (n : Node)
    (s : Session (Recorded σ) Counters) :
    ∃ calls, ((v.recorded.walkTree config n).run s).2.caller.calls = s.caller.calls ++ calls ∧
      Scheduled (n.events.filter v.hears) ((v.walkTree config n).run s.forget).1 calls := by
  obtain ⟨c, hc, hwalk⟩ := v.walkTree_follows config n s
  have hcOf := hc.of_events fun step c (h : c = _) => h ▸ step.course_of config v.hears
  rw [n.flatMap_events_steps] at hcOf
  exact hwalk.scheduled (v.walkTree_recorded config n) hcOf

/-- If every event is heard, the steps of a tree fire all its events. -/
lemma Node.filter_events {hears : Event → Bool} (h : ∀ e, hears e = true) (n : Node) (depth : Nat) :
    ((n.steps depth).flatMap Step.events).filter hears = n.events := by
  rw [n.flatMap_events_steps, List.filter_eq_self.2 fun e _ => h e]

/-- Walks and runs that replace nodes call their callbacks by one schedule, which the tree alone
fixes.

Each run is called for the first events of the tree, for all of them if it succeeds, and a call that
fails is its last one and gives its error. If no call fails and groups keep binding aggregates, both
runs are called for the same events, and both succeed or fail with the same error. -/
theorem same_schedule (config : Config) (n : Node) (v : Visitors σ) (r : Replacers ρ)
    (hv : v.Complete) (hr : r.Complete) (s : Session (Recorded σ) Counters)
    (t : Session (Recorded ρ) τ) :
    ∃ walked replaced : List Call,
      ((v.recorded.walkTree config n).run s).2.caller.calls = s.caller.calls ++ walked ∧
      ((r.recorded.tree config n).run t).2.caller.calls = t.caller.calls ++ replaced ∧
      Scheduled n.events ((v.walkTree config n).run s.forget).1 walked ∧
      Scheduled n.events ((r.tree config n).run t.forget).1 replaced ∧
      (n.Distinct → r.KeepsAggregates config n t.forget →
        (∀ call ∈ walked, call.Succeeded) → (∀ call ∈ replaced, call.Succeeded) →
        walked.map (·.event) = replaced.map (·.event) ∧
        ((v.walkTree config n).run s.forget).1 =
          ((r.tree config n).run t.forget).1.map fun _ => ()) := by
  obtain ⟨c, hc, hwalk⟩ := v.walkTree_follows config n s
  obtain ⟨d, hd, htree⟩ := r.tree_follows_of config n t
  have hcOf := hc.of_events fun step c (h : c = _) => h ▸ step.course_of config v.hears
  rw [Node.filter_events hv] at hcOf
  rw [Node.filter_events hr] at hd
  obtain ⟨walked, hwalked, hwalkScheduled⟩ := hwalk.scheduled (v.walkTree_recorded config n) hcOf
  obtain ⟨replaced, hreplaced, htreeScheduled⟩ := htree.scheduled (r.tree_recorded config n) hd
  refine ⟨walked, replaced, hwalked, hreplaced, hwalkScheduled, htreeScheduled, ?_⟩
  -- the run that replaces nodes has the course of the walk too, and both go by it to the end
  intro hn hkeeps hwalkedOk hreplacedOk
  obtain ⟨c', hc', htree'⟩ := Replacers.tree_follows_walk hn hkeeps
  have hears : v.hears = r.hears := funext fun e => (hv e).trans (hr e).symm
  rw [← hears] at hc'
  cases hc.unique (fun _ _ _ h h' => h.trans h'.symm) hc'
  obtain ⟨hevents, hresult⟩ := hwalk.of_succeeded (v.walkTree_recorded config n) hwalked hwalkedOk
  obtain ⟨hevents', hresult'⟩ :=
    htree'.of_succeeded (r.tree_recorded config n) hreplaced hreplacedOk
  refine ⟨hevents.trans hevents'.symm, ?_⟩
  rw [hresult', ← hresult]
  exact (congrFun Except.map_id _).symm

/-- Visitors that count their calls. -/
def Visitors.counting : Visitors Nat where
  before := some fun _ => modify (· + 1)
  onOp := some fun _ => modify (· + 1)
  onExpr := some fun _ => modify (· + 1)
  after := some fun _ => modify (· + 1)

/-- Replacing callbacks that count their calls and keep every node. -/
def Replacers.counting : Replacers Nat where
  before := some fun _ => modify (· + 1)
  onOp := some fun _ rebuilt => do
    modify (· + 1)
    return rebuilt
  onExpr := some fun _ rebuilt => do
    modify (· + 1)
    return rebuilt
  after := some fun _ => modify (· + 1)

/-- The counting visitors hear of every event. -/
lemma Visitors.complete_counting : counting.Complete := by
  rintro (_ | _ | _ | _) <;> rfl

/-- The counting replacers hear of every event. -/
lemma Replacers.complete_counting : counting.Complete := by
  rintro (_ | _ | _ | _) <;> rfl

/-- The counting replacers return aggregates for aggregates. -/
lemma Replacers.returnsAggregates_counting : counting.ReturnsAggregates := by
  intro c hc old rebuilt a s s' hrun hrebuilt
  cases hc
  cases hrun
  exact hrebuilt

/-- On a count over a table both runs call their callbacks for the same events. -/
theorem counting_same_schedule :
    let n := Node.op (.countedBy ⟨"k"⟩ "T")
    Visitors.counting.Complete ∧ Replacers.counting.Complete ∧ n.Distinct ∧
      ∃ walked replaced : List Call,
        ((Visitors.counting.recorded.walkTree {} n).run ⟨⟨0, []⟩, {}, #[]⟩).2.caller.calls =
          walked ∧
        ((Replacers.counting.recorded.tree {} n).run ⟨⟨0, []⟩, (), #[]⟩).2.caller.calls =
          replaced ∧
        walked.map (·.event) = replaced.map (·.event) := by
  intro n
  have hn : n.Distinct := Op.distinct_countedBy _ _
  obtain ⟨walked, replaced, hwalked, hreplaced, hwalk, htree, hsame⟩ :=
    same_schedule {} n Visitors.counting Replacers.counting Visitors.complete_counting
      Replacers.complete_counting ⟨⟨0, []⟩, {}, #[]⟩ ⟨⟨0, []⟩, (), #[]⟩
  have hkeeps : Replacers.counting.KeepsAggregates {} n (⟨0, (), #[]⟩ : Session Nat Unit) :=
    Replacers.keepsAggregates_of_onExpr Replacers.returnsAggregates_counting hn _
  refine ⟨Visitors.complete_counting, Replacers.complete_counting, hn, walked, replaced, hwalked,
    hreplaced, (hsame hn hkeeps ?_ ?_).1⟩
  · apply hwalk.succeeded (a := ())
    simp only [n, Visitors.walkTree, drain, Step.follow, Node.schedule, Node.parts, Op.parts,
      Op.countedBy, Expr.parts, Bindings.values, List.map_cons, List.map_nil, List.cons_append,
      List.nil_append]
    rfl
  · apply htree.succeeded (a := n)
    simp only [n, Replacers.tree, Replacers.op, drain, Step.follow, Node.schedule, Node.parts,
      Op.parts, Op.countedBy, Expr.parts, Bindings.values, List.map_cons, List.map_nil,
      List.cons_append, List.nil_append]
    rfl

end QueryPlan
