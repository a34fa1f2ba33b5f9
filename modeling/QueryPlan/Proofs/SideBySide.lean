import QueryPlan.Proofs.Rebuild
import QueryPlan.Proofs.Steps
import QueryPlan.Walk

/-!
# Runs side by side

Two runs over one root that differ a little, in a limit, in the hooks or in what is noted of the
calls, are compared by a relation between runs. `RunRelation.Congruence` says that such a relation
goes through everything that runs are put together with. Then it is enough to compare the callbacks
and the checks of the depth: `Visitors.walk_related` and `Replacers.replace_related` carry a
congruence from there to whole runs, over any root.

`RunM.Seen` is the relation used most. One run is what the other one looks like to somebody who sees
only a part of the state of the caller.
-/

namespace QueryPlan

variable {σ ρ τ υ α β : Type}

/-- A relation between the runs of two callers, whatever the state and the result of the run. -/
abbrev RunRelation (σ ρ : Type) := ∀ ⦃τ α : Type⦄, RunM σ τ α → RunM ρ τ α → Prop

/-- The relation goes through everything that runs are put together with. -/
structure RunRelation.Congruence (R : RunRelation σ ρ) : Prop where
  pure : ∀ {τ α : Type} (a : α), R (Pure.pure a : RunM σ τ α) (Pure.pure a)
  throw : ∀ {τ α : Type} (e : RunError), R (throw e : RunM σ τ α) (throw e)
  emit : ∀ {τ : Type} (r : LogRecord), R (RunM.emit r : RunM σ τ Unit) (RunM.emit r)
  modifyOwn : ∀ {τ : Type} (f : τ → τ), R (RunM.modifyOwn f : RunM σ τ Unit) (RunM.modifyOwn f)
  gather : ∀ {α : Type} (c : Gather α),
    R (Replacers.gather c : RunM σ Rebuilt α) (Replacers.gather c)
  bind : ∀ {τ α β : Type} {x : RunM σ τ α} {y : RunM ρ τ α} {f : α → RunM σ τ β}
    {g : α → RunM ρ τ β}, R x y → (∀ a, R (f a) (g a)) → R (x >>= f) (y >>= g)
  within : ∀ {τ υ α : Type} (own : υ) {x : RunM σ υ α} {y : RunM ρ υ α}, R x y →
    R (RunM.within own x : RunM σ τ α) (RunM.within own y)

namespace RunRelation.Congruence

variable {R : RunRelation σ ρ}

/-- Loops are related if they do related things with each member. -/
lemma forM (hR : R.Congruence) {f : α → RunM σ τ Unit} {g : α → RunM ρ τ Unit}
    (h : ∀ a, R (f a) (g a)) (as : List α) : R (forM as f) (forM as g) := by
  induction as with
  | nil => exact hR.pure ()
  | cons a as ih =>
    rw [List.forM_cons, List.forM_cons]
    exact hR.bind (h a) fun _ => ih

/-- Loops with results are related if they do related things with each member. -/
lemma mapM (hR : R.Congruence) {f : α → RunM σ τ β} {g : α → RunM ρ τ β}
    (h : ∀ a, R (f a) (g a)) (as : List α) : R (as.mapM f) (as.mapM g) := by
  induction as with
  | nil => exact hR.pure []
  | cons a as ih =>
    rw [List.mapM_cons, List.mapM_cons]
    apply hR.bind (h a)
    intro b
    exact hR.bind ih fun bs => hR.pure (b :: bs)

/-- Folds are related if their steps are. -/
lemma foldlM (hR : R.Congruence) {f : β → α → RunM σ τ β} {g : β → α → RunM ρ τ β}
    (h : ∀ b a, R (f b a) (g b a)) (as : List α) (b : β) : R (as.foldlM f b) (as.foldlM g b) := by
  induction as generalizing b with
  | nil => exact hR.pure b
  | cons a as ih =>
    rw [List.foldlM_cons, List.foldlM_cons]
    exact hR.bind (h b a) ih

/-- The loops over waiting steps are related if they perform each step alike. -/
lemma drain (hR : R.Congruence) {f : Step → RunM σ τ Unit} {g : Step → RunM ρ τ Unit}
    (h : ∀ s, R (f s) (g s)) (waiting : List Step) : R (drain f waiting) (drain g waiting) := by
  rw [drain_eq_forM, drain_eq_forM]
  exact hR.forM h _

/-- The checks of a node are related. -/
lemma checkNode (hR : R.Congruence) (n : Node) :
    R (RunM.checkNode n : RunM σ τ Unit) (RunM.checkNode n) := by
  unfold RunM.checkNode
  split
  · exact hR.bind (hR.emit _) fun _ => hR.throw _
  · exact hR.pure ()

end RunRelation.Congruence

/-! ### Related callbacks -/

/-- The checks of the depth under two limits are related. -/
def Config.Related (R : RunRelation σ ρ) (config config' : Config) : Prop :=
  ∀ ⦃τ : Type⦄ (depth : Nat),
    R (RunM.checkDepth config depth : RunM σ τ Unit) (RunM.checkDepth config' depth)

/-- The checks of the depth under one limit are related. -/
lemma RunRelation.Congruence.checkDepth {R : RunRelation σ ρ} (hR : R.Congruence)
    (config : Config) : config.Related R config := by
  intro τ depth
  unfold RunM.checkDepth
  split
  · split
    · exact hR.bind (hR.emit _) fun _ => hR.throw _
    · exact hR.pure ()
  · exact hR.pure ()

/-- The hooks of two callers are related. -/
structure Hooks.Related (R : RunRelation σ ρ) (h : Hooks σ) (h' : Hooks ρ) : Prop where
  before : ∀ {τ : Type} (o : Op),
    R (RunM.notify h.before o : RunM σ τ Unit) (RunM.notify h'.before o)
  after : ∀ {τ : Type} (o : Op),
    R (RunM.notify h.after o : RunM σ τ Unit) (RunM.notify h'.after o)

/-- The callbacks of two walks are related. -/
structure Visitors.Related (R : RunRelation σ ρ) (v : Visitors σ) (v' : Visitors ρ) : Prop where
  hooks : v.toHooks.Related R v'.toHooks
  onOp : ∀ o, R (RunM.notify v.onOp o : RunM σ Counters Unit) (RunM.notify v'.onOp o)
  onExpr : ∀ e, R (RunM.notify v.onExpr e : RunM σ Counters Unit) (RunM.notify v'.onExpr e)

/-- The callbacks of two runs that replace nodes are related. -/
structure Replacers.Related (R : RunRelation σ ρ) (r : Replacers σ) (r' : Replacers ρ) :
    Prop where
  hooks : r.toHooks.Related R r'.toHooks
  onOp : ∀ old rebuilt,
    R (answer r.onOp old rebuilt : RunM σ Rebuilt Op) (answer r'.onOp old rebuilt)
  onExpr : ∀ old rebuilt,
    R (answer r.onExpr old rebuilt : RunM σ Rebuilt Expr) (answer r'.onExpr old rebuilt)

namespace Hooks.Related

variable {R : RunRelation σ ρ} {h : Hooks σ} {h' : Hooks ρ}

/-- With related hooks a node is entered alike. -/
lemma reach (hh : h.Related R h') (hR : R.Congruence) (activity : Activity) (n : Node)
    (depth : Nat) :
    R (RunM.reach activity h n depth : RunM σ τ Unit) (RunM.reach activity h' n depth) := by
  apply hR.bind (hR.emit _)
  intro _
  apply hR.bind (hR.checkNode n)
  intro _
  cases n with
  | op o =>
    dsimp only
    split
    · exact hh.before o
    · exact hR.pure ()
  | expr e => exact hR.pure ()

/-- With related hooks a scope is closed alike. -/
lemma close (hh : h.Related R h') (hR : R.Congruence) (o : Op) :
    R (RunM.close h o : RunM σ τ Unit) (RunM.close h' o) := by
  unfold RunM.close
  split
  · exact hh.after o
  · exact hR.pure ()

end Hooks.Related

/-! ### Whole runs -/

namespace Visitors

variable {R : RunRelation σ ρ} {config config' : Config} {v : Visitors σ} {v' : Visitors ρ}

/-- Related visitors perform each step alike. -/
lemma perform_related (hR : R.Congruence) (hconfig : config.Related R config')
    (hv : v.Related R v') (s : Step) : R (v.perform config s) (v'.perform config' s) := by
  cases s with
  | enter n depth =>
    apply hR.bind (hconfig depth)
    intro _
    apply hR.bind (hR.modifyOwn _)
    intro _
    exact hv.hooks.reach hR _ n depth
  | leave n =>
    cases n with
    | op o =>
      apply hR.bind (hR.modifyOwn _)
      intro _
      exact hR.bind (hv.onOp o) fun _ => hv.hooks.close hR o
    | expr e => exact hR.bind (hR.modifyOwn _) fun _ => hv.onExpr e

/-- Related visitors make related walks of a tree. -/
lemma walkTree_related (hR : R.Congruence) (hconfig : config.Related R config')
    (hv : v.Related R v') (n : Node) : R (v.walkTree config n) (v'.walkTree config' n) :=
  hR.drain (perform_related hR hconfig hv) _

/-- What relates the callbacks of two walks relates the walks. -/
theorem walk_related (hR : R.Congruence) (hconfig : config.Related R config')
    (hv : v.Related R v') (root : Root) : R (v.walk config root) (v'.walk config' root) :=
  hR.forM (walkTree_related hR hconfig hv) _

end Visitors

namespace Replacers

variable {R : RunRelation σ ρ} {config config' : Config} {r : Replacers σ} {r' : Replacers ρ}

/-- Related replacing callbacks perform each step alike. -/
lemma perform_related (hR : R.Congruence) (hconfig : config.Related R config')
    (hr : r.Related R r') (s : Step) : R (r.perform config s) (r'.perform config' s) := by
  cases s with
  | enter n depth => exact hR.bind (hconfig depth) fun _ => hr.hooks.reach hR _ n depth
  | leave n =>
    cases n with
    | op o =>
      apply hR.bind (hR.gather o.rebuild)
      intro rebuilt
      apply hR.bind (hR.checkNode (.op rebuilt))
      intro _
      apply hR.bind (hr.onOp o rebuilt)
      intro result
      exact hR.bind (hr.hooks.close hR o) fun _ => hR.modifyOwn _
    | expr e =>
      apply hR.bind (hR.gather e.rebuild)
      intro rebuilt
      exact hR.bind (hr.onExpr e rebuilt) fun result => hR.modifyOwn _

/-- Related replacing callbacks make related transformations of an operator. -/
lemma op_related (hR : R.Congruence) (hconfig : config.Related R config')
    (hr : r.Related R r') (o : Op) :
    R (r.op config o : RunM σ τ Op) (r'.op config' o) := by
  apply hR.within
  exact hR.bind (hR.drain (perform_related hR hconfig hr) _) fun _ => hR.gather _

/-- Related replacing callbacks make related transformations of an expression. -/
lemma expr_related (hR : R.Congruence) (hconfig : config.Related R config')
    (hr : r.Related R r') (e : Expr) :
    R (r.expr config e : RunM σ τ Expr) (r'.expr config' e) := by
  apply hR.within
  exact hR.bind (hR.drain (perform_related hR hconfig hr) _) fun _ => hR.gather _

/-- What relates the callbacks of two runs that replace nodes relates the runs. -/
theorem replace_related (hR : R.Congruence) (hconfig : config.Related R config')
    (hr : r.Related R r') (root : Root) :
    R (r.replace config root : RunM σ τ Root) (r'.replace config' root) := by
  cases root with
  | op o => exact hR.bind (op_related hR hconfig hr o) fun _ => hR.pure _
  | expr e => exact hR.bind (expr_related hR hconfig hr e) fun _ => hR.pure _
  | exprs es =>
    exact hR.bind (hR.mapM (expr_related hR hconfig hr) es) fun _ => hR.pure _
  | bindings b =>
    refine hR.bind (hR.foldlM (fun done p => ?_) b.entries _) fun _ => hR.pure _
    apply hR.bind (expr_related hR hconfig hr p.2)
    intro e
    split
    · exact hR.pure _
    · exact hR.throw _

end Replacers

/-! ### Runs seen in part -/

/-- A session with another state of the caller. -/
def Session.mapCaller (f : σ → ρ) (s : Session σ τ) : Session ρ τ :=
  { s with caller := f s.caller }

namespace RunM

/-- The runs of `y` are those of `x` as somebody sees them who sees of the state of the caller what
`view` gives. -/
def Seen (view : σ → ρ) (x : RunM σ τ α) (y : RunM ρ τ α) : Prop :=
  ∀ s, y.run (s.mapCaller view) = ((x.run s).1, (x.run s).2.mapCaller view)

/-- A callback on the whole state does what one on the part does that is seen. -/
lemma Seen.of_run {view : σ → ρ} {c : CallerM σ α} {d : CallerM ρ α}
    (h : ∀ s, d.run (view s) = ((c.run s).1, view (c.run s).2)) :
    Seen view (call c : RunM σ τ α) (call d) := by
  intro s
  have hd := h s.caller
  rw [run_call, run_call]
  change ((d.run (view s.caller)).1, { s with caller := (d.run (view s.caller)).2 }) = _
  rw [hd]
  rfl

/-- A callback of which nothing is seen might as well be missing. -/
lemma Seen.of_unseen {view : σ → ρ} {c : CallerM σ α} {a : α}
    (h : ∀ s, ∃ t, c.run s = (.ok a, t) ∧ view t = view s) :
    Seen view (call c : RunM σ τ α) (Pure.pure a) := by
  intro s
  obtain ⟨t, hrun, ht⟩ := h s.caller
  rw [run_call, hrun]
  change (Except.ok a, { s with caller := view s.caller }) = (_, { s with caller := view t })
  rw [ht]

/-- Being seen goes along with everything that runs are put together with. -/
lemma congruence_seen (view : σ → ρ) :
    RunRelation.Congruence (fun _ _ => Seen view : RunRelation σ ρ) where
  pure _ _ := rfl
  throw _ _ := rfl
  emit _ _ := rfl
  modifyOwn _ _ := rfl
  gather c s := by
    rcases hc : c.run s.own with e | ⟨a, own⟩
    · rw [Replacers.gather_of_error hc, Replacers.gather_of_error (s := s.mapCaller view) hc]
    · rw [Replacers.gather_of_ok hc, Replacers.gather_of_ok (s := s.mapCaller view) hc]
      rfl
  bind {_ _ _ x y f g} hx hf s := by
    have hy := hx s
    rcases hrun : x.run s with ⟨e | a, t⟩
    · rw [hrun] at hy
      rw [bind_of_error hrun, bind_of_error hy]
    · rw [hrun] at hy
      rw [bind_of_ok hrun, bind_of_ok hy]
      exact hf a t
  within own x y h s := by
    have hy := h { s with own }
    rw [run_within, run_within]
    change y.run { s.mapCaller view with own } = _ at hy
    rw [hy]
    rfl

end RunM

end QueryPlan
