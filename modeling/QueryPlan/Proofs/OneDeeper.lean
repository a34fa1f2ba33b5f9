import QueryPlan.Proofs.DepthLimit

/-!
# The same tree, one level deeper

An expression stands one level deeper in an operator that holds it than it does by itself. If the
limit grows by one too, that should make no difference to a run over the expression, except for the
number in the error of a node that is too deep.

`RunM.OneDeeper` compares two such runs. They differ in the log and, for a walk, in the greatest
depth that was noted, so only what callbacks see is compared: where they start from one state of the
caller, they end alike. The relation goes through everything that the recursions are put together
with, and `Visitors.visit_oneDeeper` and `Replacers.rewrite_oneDeeper` follow by induction on the
tree.
-/

namespace QueryPlan

variable {σ τ α β : Type} {config : Config}

/-- The limit that allows one level more; without a limit there is still none. -/
def Config.raised (config : Config) : Config := ⟨config.maxDepth.map (· + 1)⟩

/-- The top of a tree is never too deep for a raised limit. -/
lemma Config.refusal_raised_one (config : Config) : config.raised.refusal 1 = none := by
  refine refusal_eq_none_iff.2 fun limit hlimit => ?_
  obtain ⟨limit, -, rfl⟩ := Option.map_eq_some_iff.1 hlimit
  exact Nat.succ_pos limit

namespace RunM

/-- How a run of `y` under the raised limit ends, compared to a run of `x`: after the same calls
with the same result. Only a run that a node stops that is too deep names its own limit. -/
structure EndsAlike (config : Config) (x : RunM (Recorded σ) τ α) (s : Session (Recorded σ) τ)
    (y : RunM (Recorded σ) τ α) (t : Session (Recorded σ) τ) : Prop where
  /-- The callbacks were called alike and leave the same state. -/
  caller : (y.run t).2.caller = (x.run s).2.caller
  result : (y.run t).1 = (x.run s).1 ∨ ∃ limit, config.maxDepth = some limit ∧
    x.EndsTooDeep limit s ∧ y.EndsTooDeep (limit + 1) t

/-- Where they start from one state of the caller, the runs of `y`, one level deeper and under the
raised limit, end like those of `x`. -/
structure OneDeeper (config : Config) (x y : RunM (Recorded σ) τ α) : Prop where
  left : x.StopsWith fun _ => True
  right : y.StopsWith fun _ => True
  run : ∀ s t, t.caller = s.caller → EndsAlike config x s y t

variable {x y : RunM (Recorded σ) τ α} {s t s' t' : Session (Recorded σ) τ}

namespace EndsAlike

variable {f g : α → RunM (Recorded σ) τ β}

/-- Where the first run succeeds, so does the other one. -/
lemma ok {a : α} (h : EndsAlike config x s y t) (hx : x.run s = (.ok a, s')) :
    ∃ t', y.run t = (.ok a, t') ∧ t'.caller = s'.caller := by
  obtain ⟨hcaller, hresult⟩ := h
  rw [hx] at hcaller hresult
  rcases hresult with hresult | ⟨limit, -, hleft, -⟩
  · exact ⟨(y.run t).2, Prod.ext hresult rfl, hcaller⟩
  · cases hx ▸ hleft.result

/-- A failing first part ends both runs. -/
lemma bind_of_error {e : RunError} (h : EndsAlike config x s y t)
    (hx : x.run s = (.error e, s')) : EndsAlike config (x >>= f) s (y >>= g) t := by
  obtain ⟨hcaller, hresult⟩ := h
  rcases hresult with hresult | ⟨limit, hlimit, hleft, hright⟩
  · have hy : y.run t = (.error e, (y.run t).2) := Prod.ext (hresult.trans (by rw [hx])) rfl
    refine ⟨?_, .inl ?_⟩
    · rw [RunM.bind_of_error hx, RunM.bind_of_error hy, hcaller, hx]
    · rw [RunM.bind_of_error hx, RunM.bind_of_error hy]
  · have hy : y.run t = (.error (.tooDeep (limit + 1)), (y.run t).2) := Prod.ext hright.result rfl
    refine ⟨?_, .inr ⟨limit, hlimit, hleft.bind f, hright.bind g⟩⟩
    rw [RunM.bind_of_error hx, RunM.bind_of_error hy, hcaller, hx]

/-- After first parts that succeed it depends on the rest. -/
lemma after {a : α} (hx : x.run s = (.ok a, s')) (hy : y.run t = (.ok a, t'))
    (hleft : x.StopsWith fun _ => True) (hright : y.StopsWith fun _ => True)
    (h : EndsAlike config (f a) s' (g a) t') : EndsAlike config (x >>= f) s (y >>= g) t := by
  obtain ⟨hcaller, hresult⟩ := h
  refine ⟨?_, ?_⟩
  · rw [bind_of_ok hx, bind_of_ok hy, hcaller]
  · refine hresult.imp (fun hresult => ?_) fun ⟨limit, hlimit, hends, hends'⟩ =>
      ⟨limit, hlimit, hends.after hx hleft, hends'.after hy hright⟩
    rw [bind_of_ok hx, bind_of_ok hy, hresult]

end EndsAlike

namespace OneDeeper

/-- The results are the same if neither run is stopped at its depth. -/
lemma of_run (left : x.StopsWith fun _ => True) (right : y.StopsWith fun _ => True)
    (h : ∀ s t, t.caller = s.caller →
      (y.run t).1 = (x.run s).1 ∧ (y.run t).2.caller = (x.run s).2.caller) :
    OneDeeper config x y where
  left := left
  right := right
  run s t hcaller := by
    obtain ⟨hresult, hcaller'⟩ := h s t hcaller
    exact ⟨hcaller', .inl hresult⟩

/-- A value that is only returned is the same at every depth. -/
lemma pure (a : α) : OneDeeper config (pure a : RunM (Recorded σ) τ α) (pure a) :=
  of_run (.pure a) (.pure a) fun _ _ hcaller => ⟨rfl, hcaller⟩

/-- An error that is thrown in either run is the same at every depth. -/
lemma throw (e : RunError) : OneDeeper config (throw e : RunM (Recorded σ) τ α) (throw e) := by
  have hstops : (MonadExcept.throw e : RunM (Recorded σ) τ α).StopsWith fun _ => True :=
    .of_follows fun _ => .of_error rfl rfl
  exact of_run hstops hstops fun _ _ hcaller => ⟨rfl, hcaller⟩

/-- Records tell the depth, so they differ. -/
lemma emit (r r' : LogRecord) : OneDeeper config (emit r : RunM (Recorded σ) τ Unit) (emit r') :=
  of_run (.of_follows fun _ => .emit r) (.of_follows fun _ => .emit r') fun _ _ hcaller =>
    ⟨rfl, hcaller⟩

/-- The own states may be changed in different ways. -/
lemma modifyOwn (f g : τ → τ) :
    OneDeeper config (modifyOwn f : RunM (Recorded σ) τ Unit) (modifyOwn g) :=
  of_run (.of_follows fun _ => .modifyOwn f) (.of_follows fun _ => .modifyOwn g)
    fun _ _ hcaller => ⟨rfl, hcaller⟩

/-- A callback sees nothing but the state of the caller. -/
lemma call {c : CallerM (Recorded σ) α}
    (h : (call c : RunM (Recorded σ) τ α).StopsWith fun _ => True) :
    OneDeeper config (call c : RunM (Recorded σ) τ α) (call c) := by
  refine of_run h h fun s t hcaller => ?_
  rw [run_call, run_call, hcaller]
  exact ⟨rfl, rfl⟩

/-- The depth of a node does not change its notification. -/
lemma notify (event : α → Event) (f : Option (α → CallerM σ Unit)) (a : α) :
    OneDeeper config
      (notify (f.map fun f a => CallerM.recorded (event a) none (fun _ => none) (f a)) a :
        RunM (Recorded σ) τ Unit)
      (notify (f.map fun f a => CallerM.recorded (event a) none (fun _ => none) (f a)) a) := by
  cases f with
  | none => exact pure ()
  | some f => exact call (.notify event (some f) a)

/-- The depth of a node does not change the answer of a replacer. -/
lemma answer (event : α → Event) (node : α → Node) (c : Option (α → α → CallerM σ α))
    (old rebuilt : α) :
    OneDeeper config
      (Replacers.answer
        (c.map fun c old rebuilt =>
          CallerM.recorded (event old) (some (node rebuilt)) (fun a => some (node a))
            (c old rebuilt))
        old rebuilt : RunM (Recorded σ) τ α)
      (Replacers.answer
        (c.map fun c old rebuilt =>
          CallerM.recorded (event old) (some (node rebuilt)) (fun a => some (node a))
            (c old rebuilt))
        old rebuilt) := by
  cases c with
  | none => exact pure rebuilt
  | some c => exact call (Replacers.stopsWith_answer event node (some c) old rebuilt)

/-- Two parts after each other end alike one level deeper if each does. -/
lemma bind {f g : α → RunM (Recorded σ) τ β} (h : OneDeeper config x y)
    (hf : ∀ a, OneDeeper config (f a) (g a)) : OneDeeper config (x >>= f) (y >>= g) where
  left := h.left.bind fun a => (hf a).left
  right := h.right.bind fun a => (hf a).right
  run s t hcaller := by
    have hfirst := h.run s t hcaller
    rcases hx : x.run s with ⟨e | a, s'⟩
    · exact hfirst.bind_of_error hx
    · obtain ⟨t', hy, hcaller'⟩ := hfirst.ok hx
      exact .after hx hy h.left h.right ((hf a).run s' t' hcaller')

/-- The run under the raised limit may do more that no callback sees. -/
lemma after_unseen {z : RunM (Recorded σ) τ Unit} (hz : OneDeeper config (Pure.pure ()) z)
    (h : OneDeeper config x y) : OneDeeper config x (z >>= fun _ => y) := by
  rw [← pure_bind () fun _ => x]
  exact hz.bind fun _ => h

/-- The deeper run may log more. -/
lemma emit_unseen (r : LogRecord) :
    OneDeeper config (Pure.pure () : RunM (Recorded σ) τ Unit) (RunM.emit r) :=
  of_run (.pure ()) (.of_follows fun _ => .emit r) fun _ _ hcaller => ⟨rfl, hcaller⟩

/-- The deeper run may change its own state in between. -/
lemma modifyOwn_unseen (f : τ → τ) :
    OneDeeper config (Pure.pure () : RunM (Recorded σ) τ Unit) (RunM.modifyOwn f) :=
  of_run (.pure ()) (.of_follows fun _ => .modifyOwn f) fun _ _ hcaller => ⟨rfl, hcaller⟩

/-- The root is never too deep for a limit that is raised. -/
lemma checkDepth_unseen (config : Config) :
    OneDeeper config (Pure.pure () : RunM (Recorded σ) τ Unit)
      (RunM.checkDepth config.raised 1) := by
  rw [checkDepth_of_none config.refusal_raised_one]
  exact pure ()

/-- Loops end alike one level deeper if the runs of their members do. -/
lemma forM {f g : α → RunM (Recorded σ) τ Unit} {as : List α}
    (h : ∀ a ∈ as, OneDeeper config (f a) (g a)) : OneDeeper config (forM as f) (forM as g) := by
  induction as with
  | nil => exact pure ()
  | cons a as ih =>
    rw [List.forM_cons, List.forM_cons]
    exact (h a (.head _)).bind fun _ => ih fun a' ha => h a' (.tail _ ha)

/-- Loops with results end alike one level deeper if the runs of their members do. -/
lemma mapM {f g : α → RunM (Recorded σ) τ β} {as : List α}
    (h : ∀ a ∈ as, OneDeeper config (f a) (g a)) : OneDeeper config (as.mapM f) (as.mapM g) := by
  induction as with
  | nil => exact pure []
  | cons a as ih =>
    rw [List.mapM_cons, List.mapM_cons]
    refine (h a (.head _)).bind fun b => ?_
    exact (ih fun a' ha => h a' (.tail _ ha)).bind fun bs => pure (b :: bs)

/-- The check of a node does not depend on its depth. -/
lemma checkNode (n : Node) :
    OneDeeper config (checkNode n : RunM (Recorded σ) τ Unit) (checkNode n) := by
  unfold RunM.checkNode
  split
  · exact (emit _ _).bind fun _ => throw _
  · exact pure ()

/-- A node is too deep for a limit if it is too deep for the raised limit one level deeper. -/
lemma checkDepth (config : Config) (depth : Nat) :
    OneDeeper config (checkDepth config depth : RunM (Recorded σ) τ Unit)
      (checkDepth config.raised (depth + 1)) := by
  have hstops (config : Config) (depth : Nat) :
      (RunM.checkDepth config depth : RunM (Recorded σ) τ Unit).StopsWith fun _ => True :=
    .of_follows fun _ => .checkDepth config depth
  refine ⟨hstops _ _, hstops _ _, fun s t hcaller => ?_⟩
  -- both checks refuse the node, each with its own limit, or both let it pass
  by_cases h : ∃ limit, config.maxDepth = some limit ∧ limit < depth
  · obtain ⟨limit, hlimit, hdepth⟩ := h
    have hraised : config.raised.maxDepth = some (limit + 1) := congrArg (·.map (· + 1)) hlimit
    have hx := checkDepth_of_lt hlimit hdepth s
    have hy := checkDepth_of_lt hraised (Nat.succ_lt_succ hdepth) t
    refine ⟨?_, .inr ⟨limit, hlimit, ?_, ?_⟩⟩
    · rw [hx, hy, hcaller]
    · exact ⟨congrArg Prod.fst hx, [], by rw [hx, List.append_nil], List.forall_mem_nil _⟩
    · exact ⟨congrArg Prod.fst hy, [], by rw [hy, List.append_nil], List.forall_mem_nil _⟩
  · have hx : config.refusal depth = none := by
      refine Config.refusal_eq_none_iff.2 fun limit hlimit => ?_
      exact Nat.le_of_not_lt fun hdepth => h ⟨limit, hlimit, hdepth⟩
    have hy : config.raised.refusal (depth + 1) = none := by
      refine Config.refusal_eq_none_iff.2 fun limit' hlimit' => ?_
      obtain ⟨limit, hlimit, rfl⟩ := Option.map_eq_some_iff.1 hlimit'
      exact Nat.succ_le_succ (Config.refusal_eq_none_iff.1 hx limit hlimit)
    rw [checkDepth_of_none hx, checkDepth_of_none hy]
    exact (pure ()).run s t hcaller

/-- The depth at which a node is reached shows only in the log and in the counters. -/
lemma reach (activity : Activity) (h : Hooks σ) (n : Node) (depth depth' : Nat) :
    OneDeeper config (reach activity h.recorded n depth : RunM (Recorded σ) τ Unit)
      (reach activity h.recorded n depth') := by
  refine (emit _ _).bind fun _ => (checkNode n).bind fun _ => ?_
  cases n with
  | op o =>
    dsimp only
    split
    · exact notify .before h.before o
    · exact pure ()
  | expr e => exact pure ()

/-- The closing of a scope does not depend on its depth. -/
lemma close (h : Hooks σ) (o : Op) :
    OneDeeper config (close h.recorded o : RunM (Recorded σ) τ Unit) (close h.recorded o) := by
  unfold RunM.close
  split
  · exact notify .after h.after o
  · exact pure ()

end OneDeeper

end RunM

/-! ### Trees -/

/-- A walk of a tree one level deeper. -/
lemma Visitors.visit_oneDeeper (config : Config) (v : Visitors σ) (depth : Nat) (n : Node) :
    RunM.OneDeeper config (v.recorded.visit config depth n)
      (v.recorded.visit config.raised (depth + 1) n) := by
  induction n using Node.inductionOnParts generalizing depth with
  | step n ih =>
    rw [visit_eq, visit_eq]
    refine RunM.OneDeeper.bind ?_ fun _ =>
      (RunM.OneDeeper.forM fun p hp => ih p hp (depth + 1)).bind fun _ => ?_
    · refine (RunM.OneDeeper.checkDepth config depth).bind fun _ => ?_
      exact (RunM.OneDeeper.modifyOwn _ _).bind fun _ => .reach .walking v.toHooks n depth _
    · cases n with
      | op o =>
        refine (RunM.OneDeeper.modifyOwn _ _).bind fun _ => ?_
        exact (RunM.OneDeeper.notify .op v.onOp o).bind fun _ => .close v.toHooks o
      | expr e => exact (RunM.OneDeeper.modifyOwn _ _).bind fun _ => .notify .expr v.onExpr e

/-- The rebuilding of a node does not depend on its depth. -/
lemma Replacers.finish_oneDeeper (config : Config) (r : Replacers σ) (n : Node)
    (results : List Node) :
    RunM.OneDeeper config (r.recorded.finish n results : RunM (Recorded σ) τ Node)
      (r.recorded.finish n results) := by
  cases n with
  | op o =>
    refine (RunM.OneDeeper.checkNode _).bind fun _ => ?_
    refine (RunM.OneDeeper.answer .op .op r.onOp o _).bind fun _ => ?_
    exact (RunM.OneDeeper.close r.toHooks o).bind fun _ => .pure _
  | expr e => exact (RunM.OneDeeper.answer .expr .expr r.onExpr e _).bind fun _ => .pure _

/-- Replacing the nodes of a tree one level deeper. -/
lemma Replacers.rewrite_oneDeeper (config : Config) (r : Replacers σ) (depth : Nat) (n : Node) :
    RunM.OneDeeper config (r.recorded.rewrite config depth n : RunM (Recorded σ) τ Node)
      (r.recorded.rewrite config.raised (depth + 1) n) := by
  induction n using Node.inductionOnParts generalizing depth with
  | step n ih =>
    rw [rewrite_eq, rewrite_eq]
    refine (RunM.OneDeeper.checkDepth config depth).bind fun _ => ?_
    refine (RunM.OneDeeper.reach .replacing r.toHooks n depth _).bind fun _ => ?_
    refine (RunM.OneDeeper.mapM fun p hp => ih p hp (depth + 1)).bind fun results => ?_
    exact r.finish_oneDeeper config n results

end QueryPlan
