import QueryPlan.Proofs.Courses

/-!
# The courses of walks and of runs that replace nodes

`Node.events` lists the events of a tree: a composite operator is opened, the events of the parts
follow, then the node itself comes, and a composite operator is closed. It looks at nothing but the
tree.

`Visitors.perform_follows` and `Replacers.perform_follows` say what one step does. They differ in
what can stop a run at a node that is left: nothing in a walk, and what the stacks make of the node
otherwise. `drain_follows` puts the courses of steps together.
-/

namespace QueryPlan

/-- The events before the parts of a node. -/
def Node.opening : Node → List Event
  | op o => if o.isComposite then [.before o] else []
  | expr _ => []

/-- The events after the parts of a node. -/
def Node.closing : Node → List Event
  | op o => [.op o] ++ if o.isComposite then [.after o] else []
  | expr e => [.expr e]

/-- The events of a tree. -/
def Node.events (n : Node) : List Event :=
  n.opening ++ n.parts.attach.flatMap (fun ⟨p, _⟩ => p.events) ++ n.closing
termination_by sizeOf n
decreasing_by exact sizeOf_lt_of_mem_parts ‹_›

/-- A node is opened, then come the events of its parts, then it is closed. -/
lemma Node.events_eq (n : Node) :
    n.events = n.opening ++ n.parts.flatMap events ++ n.closing := by
  rw [events]
  congr 2
  conv_rhs => rw [← List.attach_map_subtype_val n.parts, List.flatMap_map]

/-- The events of a step. -/
def Step.events : Step → List Event
  | enter n _ => n.opening
  | leave n => n.closing

/-- The steps of a tree have its events. -/
lemma Node.flatMap_events_steps (n : Node) (depth : Nat) :
    (n.steps depth).flatMap Step.events = n.events := by
  induction n using Node.inductionOnParts generalizing depth with
  | step n ih =>
    have hparts : (n.parts.flatMap (·.steps (depth + 1))).flatMap Step.events =
        n.parts.flatMap events := by
      rw [List.flatMap_assoc]
      exact List.flatMap_congr fun p hp => ih p hp (depth + 1)
    rw [n.steps_eq, n.events_eq, List.flatMap_append, List.flatMap_cons, List.flatMap_singleton,
      hparts]
    rfl

/-! ### Single steps -/

variable {σ τ α : Type}

/-- The callbacks that are there hear of an event. -/
def Hooks.hears (h : Hooks σ) (ops exprs : Bool) : Event → Bool
  | .before _ => h.before.isSome
  | .op _ => ops
  | .expr _ => exprs
  | .after _ => h.after.isSome

/-- The events that visitors are called for. -/
def Visitors.hears (v : Visitors σ) : Event → Bool :=
  v.toHooks.hears v.onOp.isSome v.onExpr.isSome

/-- The events that replacing callbacks are called for. -/
def Replacers.hears (r : Replacers σ) : Event → Bool :=
  r.toHooks.hears r.onOp.isSome r.onExpr.isSome

/-- The error for a depth. -/
def Config.refusal (config : Config) (depth : Nat) : Option RunError :=
  config.maxDepth.bind fun limit => if limit < depth then some (.tooDeep limit) else none

/-- The error for a node. -/
def Node.refusal (n : Node) : Option RunError := n.defect?.map Defect.error

/-- The course of a step that is stopped by its depth and its node alone. -/
def Step.course (config : Config) (hears : Event → Bool) : Step → Course
  | enter n depth =>
    (Course.stopping (config.refusal depth)).andThen
      ((Course.stopping n.refusal).andThen (.firing (n.opening.filter hears)))
  | leave n => .firing (n.closing.filter hears)

/-- What makes a walk stop at a step. -/
def Step.refusal (config : Config) : Step → Option RunError
  | enter n depth => (config.refusal depth).or n.refusal
  | leave _ => none

/-- A step stops at what refuses it, or else fires those of its events that are heard. -/
lemma Step.course_eq (config : Config) (hears : Event → Bool) (s : Step) :
    s.course config hears =
      (Course.stopping (s.refusal config)).andThen (.firing (s.events.filter hears)) := by
  cases s with
  | enter n depth =>
    dsimp only [course, refusal]
    cases config.refusal depth <;> rfl
  | leave n => rfl

/-- Who hears of the events does not matter for where a step stops. -/
lemma Step.stop_course (config : Config) (hears : Event → Bool) (s : Step) :
    (s.course config hears).stop = s.refusal config := by
  rw [course_eq, Course.stop_andThen]
  exact Option.or_none

namespace RunM.Follows

variable {s : Session (Recorded σ) τ}

/-- The check of a depth stops if the depth is refused. -/
lemma checkDepth (config : Config) (depth : Nat) :
    (checkDepth config depth : RunM (Recorded σ) τ Unit).Follows s
      (.stopping (config.refusal depth)) := by
  unfold RunM.checkDepth Config.refusal
  rcases config.maxDepth with _ | limit
  · exact pure ()
  · by_cases h : limit < depth
    · simp only [if_pos h, Option.bind_some]
      exact of_error rfl rfl
    · simp only [if_neg h, Option.bind_some]
      exact pure ()

/-- The check of a node stops if the node is refused. -/
lemma checkNode (n : Node) :
    (checkNode n : RunM (Recorded σ) τ Unit).Follows s (.stopping n.refusal) := by
  unfold RunM.checkNode Node.refusal
  rcases n.defect? with _ | d
  · exact pure ()
  · exact of_error rfl rfl

/-- Entering a node stops if the node is refused, or else fires its opening. -/
lemma reach (activity : Activity) (h : Hooks σ) (ops exprs : Bool) (n : Node) (depth : Nat) :
    (reach activity h.recorded n depth : RunM (Recorded σ) τ Unit).Follows s
      ((Course.stopping n.refusal).andThen (.firing (n.opening.filter (h.hears ops exprs)))) := by
  refine bind_done (emit _) fun _ _ _ => (checkNode n).bind fun _ _ _ => ?_
  cases n with
  | op o =>
    by_cases ho : o.isComposite = true
    · simp only [Node.opening, if_pos ho]
      exact notify .before h.before o rfl
    · simp only [Node.opening, if_neg ho]
      exact pure ()
  | expr e => exact pure ()

/-- The closing of a scope fires the `after` hook of a composite operator, if it is heard. -/
lemma close (h : Hooks σ) (ops exprs : Bool) (o : Op) :
    (close h.recorded o : RunM (Recorded σ) τ Unit).Follows s
      (.firing ((if o.isComposite then [Event.after o] else []).filter (h.hears ops exprs))) := by
  unfold RunM.close
  by_cases ho : o.isComposite = true
  · simp only [if_pos ho]
    exact notify .after h.after o rfl
  · simp only [if_neg ho]
    exact pure ()

end RunM.Follows

/-- The course of a step of a walk. -/
theorem Visitors.perform_follows (config : Config) (v : Visitors σ) (s : Step)
    (t : Session (Recorded σ) Counters) :
    (v.recorded.perform config s).Follows t (s.course config v.hears) := by
  cases s with
  | enter n depth =>
    refine (RunM.Follows.checkDepth config depth).bind fun _ _ _ => ?_
    refine (RunM.Follows.modifyOwn _).bind_done fun _ _ _ => ?_
    exact RunM.Follows.reach _ v.toHooks v.onOp.isSome v.onExpr.isSome n depth
  | leave n =>
    cases n with
    | op o =>
      refine (RunM.Follows.modifyOwn _).bind_done fun _ _ _ => ?_
      rw [Step.course, Node.closing, List.filter_append, ← Course.firing_andThen_firing]
      refine (RunM.Follows.notify .op v.onOp o rfl).bind fun _ _ _ => ?_
      exact RunM.Follows.close v.toHooks v.onOp.isSome v.onExpr.isSome o
    | expr e =>
      refine (RunM.Follows.modifyOwn _).bind_done fun _ _ _ => ?_
      exact RunM.Follows.notify .expr v.onExpr e rfl

namespace Replacers

/-- The error for an operator that is left: it cannot be rebuilt, or the rebuilt one is refused. -/
def refusalOp (o : Op) (built : Rebuilt) : Option RunError :=
  match o.rebuild.run built with
  | .ok (rebuilt, _) => (Node.op rebuilt).refusal
  | .error e => some e

/-- The error for an expression that is left: it cannot be rebuilt. -/
def refusalExpr (e : Expr) (built : Rebuilt) : Option RunError :=
  match e.rebuild.run built with
  | .ok _ => none
  | .error e => some e

/-- The error for a node that is left with results on the stacks. -/
def refusal : Node → Rebuilt → Option RunError
  | .op o, built => refusalOp o built
  | .expr e, built => refusalExpr e built

/-- On top of the results for its parts an operator is refused if the rebuilt one is. -/
lemma refusal_op {o : Op} {results : List Node} (h : (Node.op o).Distinct)
    (hr : Results o.parts results) (below : Rebuilt) :
    refusal (.op o) (below.pushAll results) = ((Node.op o).over results).refusal := by
  rw [refusal, refusalOp, Op.rebuild_pushAll h hr]
  rfl

/-- An expression that is left with results for its parts is not refused. -/
lemma refusal_expr {e : Expr} {results : List Node} (hr : Results e.parts results)
    (below : Rebuilt) : refusal (.expr e) (below.pushAll results) = none := by
  rw [refusal, refusalExpr, Expr.rebuild_pushAll hr]

/-- The course of a step with results on the stacks. -/
def course (config : Config) (r : Replacers σ) (built : Rebuilt) : Step → Course
  | .enter n depth => (Step.enter n depth).course config r.hears
  | .leave n =>
    (Course.stopping (refusal n built)).andThen (.firing (n.closing.filter r.hears))

/-- An answer fires its event if a callback hears of it. -/
lemma answer_follows {s : Session (Recorded σ) τ} (event : α → Event) (node : α → Node)
    (c : Option (α → α → CallerM σ α)) (old rebuilt : α) {hears : Event → Bool}
    (h : hears (event old) = c.isSome) :
    (answer
      (c.map fun c old rebuilt =>
        CallerM.recorded (event old) (some (node rebuilt)) (fun a => some (node a))
          (c old rebuilt))
      old rebuilt : RunM (Recorded σ) τ α).Follows s (.firing ([event old].filter hears)) := by
  cases c with
  | none =>
    rw [List.filter_cons_of_neg (ne_true_of_eq_false h)]
    exact .pure rebuilt
  | some c =>
    rw [List.filter_cons_of_pos h]
    exact .call _ _ _ _

/-- The course of a step of a run that replaces nodes. -/
theorem perform_follows (config : Config) (r : Replacers σ) (s : Step)
    (t : Session (Recorded σ) Rebuilt) :
    (r.recorded.perform config s).Follows t (r.course config t.own s) := by
  cases s with
  | enter n depth =>
    refine (RunM.Follows.checkDepth config depth).bind fun _ _ _ => ?_
    exact RunM.Follows.reach _ r.toHooks r.onOp.isSome r.onExpr.isSome n depth
  | leave n =>
    cases n with
    | op o =>
      rw [course, refusal, refusalOp, Node.closing, List.filter_append,
        ← Course.firing_andThen_firing]
      rcases hrun : o.rebuild.run t.own with e | ⟨rebuilt, own⟩
      · exact .of_error (RunM.bind_of_error (gather_of_error hrun)) rfl
      · refine (RunM.Follows.of_ok (gather_of_ok hrun) rfl).bind_done fun _ _ h => ?_
        cases (gather_of_ok hrun).symm.trans h
        refine (RunM.Follows.checkNode _).bind fun _ _ _ => ?_
        refine (answer_follows .op .op r.onOp o rebuilt rfl).bind fun _ _ _ => ?_
        rw [← Course.andThen_done (.firing _)]
        refine (RunM.Follows.close r.toHooks r.onOp.isSome r.onExpr.isSome o).bind fun _ _ _ => ?_
        exact .modifyOwn _
    | expr e =>
      rw [course, refusal, refusalExpr]
      rcases hrun : e.rebuild.run t.own with e' | ⟨rebuilt, own⟩
      · exact .of_error (RunM.bind_of_error (gather_of_error hrun)) rfl
      · refine (RunM.Follows.of_ok (gather_of_ok hrun) rfl).bind_done fun _ _ h => ?_
        cases (gather_of_ok hrun).symm.trans h
        change RunM.Follows _ _ (.firing ([.expr e].filter r.hears))
        rw [← Course.andThen_done (.firing _)]
        refine (answer_follows .expr .expr r.onExpr e rebuilt rfl).bind fun _ _ _ => ?_
        exact .modifyOwn _

end Replacers

/-! ### Many steps -/

/-- The courses of some steps, one after the other. -/
inductive Courses (R : Step → Course → Prop) : List Step → Course → Prop where
  | nil :
    Courses R [] .done
  | cons {s steps c d} :
    R s c →
    Courses R steps d →
    Courses R (s :: steps) (c.andThen d)

/-- If every step can have a course, so can all steps together. -/
lemma Courses.exists_of_total {R : Step → Course → Prop} (h : ∀ s, ∃ c, R s c)
    (steps : List Step) : ∃ c, Courses R steps c := by
  induction steps with
  | nil => exact ⟨_, .nil⟩
  | cons s steps ih =>
    obtain ⟨c, hc⟩ := h s
    obtain ⟨d, hd⟩ := ih
    exact ⟨_, .cons hc hd⟩

/-- If the courses of the steps are known in the states that the loop reaches, the loop has them,
one after the other. -/
theorem drain_follows {R : Step → Course → Prop} (htotal : ∀ s, ∃ c, R s c)
    {perform : Step → RunM (Recorded σ) τ Unit} {waiting t}
    (hstep : ∀ s rest u, Reaches perform ⟨waiting, t⟩ ⟨s :: rest, u⟩ →
      ∃ c, R s c ∧ (perform s).Follows u c) :
    ∃ c, Courses R (upcoming waiting) c ∧ (drain perform waiting).Follows t c := by
  induction waiting using drain.induct generalizing t with
  | case1 =>
    rw [drain]
    exact ⟨.done, .nil, .pure ()⟩
  | case2 s waiting ih =>
    obtain ⟨c, hc, hs⟩ := hstep s waiting t .refl
    rw [upcoming_cons, drain]
    rcases hrun : (perform s).run t with ⟨e | _, u⟩
    · -- the other steps are never performed, so any courses will do for them
      obtain ⟨d, hd⟩ := Courses.exists_of_total htotal (upcoming (s.follow waiting))
      exact ⟨_, .cons hc hd, hs.bind_of_error hrun d⟩
    · have hrest (s' rest v) (h : Reaches perform ⟨s.follow waiting, u⟩ ⟨s' :: rest, v⟩) :=
        hstep s' rest v (.head (.step hrun) h)
      obtain ⟨d, hd, hfollows⟩ := ih hrest
      refine ⟨_, .cons hc hd, hs.bind fun _ _ h => ?_⟩
      cases hrun.symm.trans h
      exact hfollows

end QueryPlan
