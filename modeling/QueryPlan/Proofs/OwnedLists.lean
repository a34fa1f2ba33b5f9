import QueryPlan.Proofs.Begun
import QueryPlan.Proofs.HooksApart
import QueryPlan.Proofs.OneDeeper

/-!
# Lists by themselves and in an operator

The expressions of an `extend` and of a `filter` can be walked and replaced by themselves, as a root
of their own, or as parts of the operator. By themselves each of them has a loop and stacks of its
own; in the operator all of them share one loop, and the operator gathers their results together.

`lists_agree_with_operators` says that this makes no difference. The operator begins with what the
list does by itself, goes on with its input, and is rebuilt from what came of the two. The list
stops at its first expression that fails (`RunM.StopsAtFirst`).
-/

namespace QueryPlan

variable {σ ρ τ α β γ : Type} {config : Config}

namespace RunM

/-- The run of `whole` from `s`, under the raised limit, begins with that of `first` and goes on
like `rest`. -/
structure BeginsWith (config : Config) (whole : RunM (Recorded σ) τ β)
    (first : RunM (Recorded σ) τ α) (rest : α → RunM (Recorded σ) τ β)
    (s : Session (Recorded σ) τ) : Prop where
  /-- The calls of `first` come first. -/
  calls : (first.run s).2.caller.calls <+: (whole.run s).2.caller.calls
  /-- If `first` fails, nothing else is called, and the error is the same. Only a node that is too
  deep is refused with the limit of the run. -/
  failed : ∀ e t, first.run s = (.error e, t) →
    (whole.run s).2.caller = t.caller ∧
      ((whole.run s).1 = .error e ∨ ∃ limit, config.maxDepth = some limit ∧
        first.EndsTooDeep limit s ∧ whole.EndsTooDeep (limit + 1) s)
  /-- If it succeeds, the run ends as `rest` does with its result. -/
  succeeded : ∀ a t, first.run s = (.ok a, t) → EndsAlike config (rest a) t whole s

/-- A run over a list does one member after the other and fails at the first one that does. What it
leaves is what that member leaves. -/
def StopsAtFirst (all : List α → RunM σ τ β) (one : α → RunM σ τ γ) (as : List α) : Prop :=
  ∀ s e u, (all as).run s = (.error e, u) ↔
    ∃ first a last b t, as = first ++ a :: last ∧ (all first).run s = (.ok b, t) ∧
      (one a).run t = (.error e, u)

section

variable {limit : Nat} {x : RunM (Recorded σ) τ α} {f : α → RunM (Recorded σ) τ β}
  {s t : Session (Recorded σ) τ}

/-- The node that is too deep stands in the first part if that fails. -/
lemma EndsTooDeep.first {e : RunError} (h : (x >>= f).EndsTooDeep limit s)
    (hx : x.run s = (.error e, t)) : x.EndsTooDeep limit s := by
  obtain ⟨hresult, hsucceeded⟩ := h
  rw [bind_of_error hx] at hresult hsucceeded
  cases hresult
  exact ⟨congrArg Prod.fst hx, hx ▸ hsucceeded⟩

/-- Otherwise it stands in the rest. -/
lemma EndsTooDeep.rest {a : α} (h : (x >>= f).EndsTooDeep limit s)
    (hx : x.run s = (.ok a, t)) (hstops : x.StopsWith fun _ => True)
    (hf : (f a).StopsWith fun _ => True) : (f a).EndsTooDeep limit t := by
  obtain ⟨hresult, calls, hcalls, hsucceeded⟩ := h
  rw [bind_of_ok hx] at hresult hcalls
  obtain ⟨before, hbefore, -⟩ := hstops.calls_succeeded hx
  obtain ⟨after, hafter⟩ := hf.calls_le t
  rw [hbefore, List.append_assoc] at hafter
  rw [← hafter] at hcalls
  refine ⟨hresult, after, ?_, fun call hcall => ?_⟩
  · rw [← hafter, hbefore, List.append_assoc]
  · rw [← List.append_cancel_left hcalls] at hsucceeded
    exact hsucceeded call (List.mem_append_right _ hcall)

end

/-- Parts that end alike one level deeper are what the deeper run begins with and goes on like. -/
lemma OneDeeper.beginsWith {first : RunM (Recorded σ) τ α} {rest : α → RunM (Recorded σ) τ β}
    {whole : RunM (Recorded σ) τ β} (hfirst : first.StopsWith fun _ => True)
    (hrest : ∀ a, (rest a).StopsWith fun _ => True)
    (h : OneDeeper config (first >>= rest) whole) (s : Session (Recorded σ) τ) :
    BeginsWith config whole first rest s := by
  obtain ⟨hcaller, hresult⟩ := h.run s s rfl
  refine ⟨?_, ?_, ?_⟩
  · rw [hcaller]
    exact calls_prefix_bind hrest first s
  · intro e t hrun
    rw [bind_of_error hrun] at hcaller hresult
    exact ⟨hcaller, hresult.imp id fun ⟨limit, hlimit, hleft, hright⟩ =>
      ⟨limit, hlimit, hleft.first hrun, hright⟩⟩
  · intro a t hrun
    rw [bind_of_ok hrun] at hcaller hresult
    exact ⟨hcaller, hresult.imp id fun ⟨limit, hlimit, hleft, hright⟩ =>
      ⟨limit, hlimit, hleft.rest hrun hfirst (hrest a), hright⟩⟩

/-! ### Members that fail -/

/-- A run fails in its first part or in the rest. -/
lemma bind_eq_error_iff {x : RunM σ τ α} {f : α → RunM σ τ β} {s u : Session σ τ} {e : RunError} :
    (x >>= f).run s = (.error e, u) ↔
      x.run s = (.error e, u) ∨ ∃ a t, x.run s = (.ok a, t) ∧ (f a).run t = (.error e, u) := by
  constructor
  · intro h
    rcases hx : x.run s with ⟨e' | a, t⟩
    · rw [bind_of_error hx] at h
      cases h
      exact .inl rfl
    · rw [bind_of_ok hx] at h
      exact .inr ⟨a, t, rfl, h⟩
  · rintro (hx | ⟨a, t, hx, hf⟩)
    · exact bind_of_error hx
    · rw [bind_of_ok hx, hf]

/-- Changing the result of a run does not change its errors. -/
lemma bind_pure_eq_error_iff {x : RunM σ τ α} {g : α → β} {s u : Session σ τ} {e : RunError} :
    (x >>= fun a => (pure (g a) : RunM σ τ β)).run s = (.error e, u) ↔
      x.run s = (.error e, u) := by
  rw [bind_eq_error_iff]
  refine or_iff_left ?_
  rintro ⟨a, t, -, hpure⟩
  cases hpure

/-- A loop fails exactly where its first failing member does, after all before have succeeded. -/
lemma mapM_eq_error_iff {f : α → RunM σ τ β} {as : List α} {s u : Session σ τ} {e : RunError} :
    (as.mapM f).run s = (.error e, u) ↔
      ∃ first a last bs t, as = first ++ a :: last ∧ (first.mapM f).run s = (.ok bs, t) ∧
        (f a).run t = (.error e, u) := by
  induction as generalizing s with
  | nil =>
    refine iff_of_false (fun h => nomatch h) ?_
    rintro ⟨first, a, last, -, -, h, -⟩
    exact List.append_ne_nil_of_right_ne_nil _ (List.cons_ne_nil _ _) h.symm
  | cons a as ih =>
    rw [List.mapM_cons, bind_eq_error_iff]
    simp only [bind_pure_eq_error_iff, ih]
    constructor
    · rintro (ha | ⟨b, t, ha, first, a', last, bs, t', rfl, hfirst, ha'⟩)
      · exact ⟨[], a, as, [], s, rfl, rfl, ha⟩
      · refine ⟨a :: first, a', last, b :: bs, t', rfl, ?_, ha'⟩
        rw [List.mapM_cons, bind_of_ok ha, bind_of_ok hfirst]
        rfl
    · rintro ⟨first, a', last, bs, t, has, hfirst, ha'⟩
      cases first with
      | nil =>
        cases has
        cases hfirst
        exact .inl ha'
      | cons a'' first =>
        cases has
        rw [List.mapM_cons] at hfirst
        obtain ⟨b, t', ha, hrest⟩ := ok_of_bind hfirst
        obtain ⟨bs', t'', hfirst', hpure⟩ := ok_of_bind hrest
        cases hpure
        exact .inr ⟨b, t', ha, first, a', last, bs', t, rfl, hfirst', ha'⟩

/-- What is made of the results does not matter. -/
lemma StopsAtFirst.of_mapM {one : α → RunM σ τ γ} {all : List α → RunM σ τ β} {as : List α}
    (g : List α → List γ → β)
    (h : ∀ first, first <+: as → all first = first.mapM one >>= fun cs => pure (g first cs)) :
    StopsAtFirst all one as := by
  intro s e u
  rw [h as List.prefix_rfl, bind_pure_eq_error_iff, mapM_eq_error_iff]
  constructor
  · rintro ⟨first, a, last, cs, t, rfl, hfirst, ha⟩
    refine ⟨first, a, last, g first cs, t, rfl, ?_, ha⟩
    rw [h first (List.prefix_append _ _), bind_of_ok hfirst]
    rfl
  · rintro ⟨first, a, last, b, t, rfl, hfirst, ha⟩
    rw [h first (List.prefix_append _ _)] at hfirst
    obtain ⟨cs, t', hfirst', hpure⟩ := ok_of_bind hfirst
    cases hpure
    exact ⟨first, a, last, cs, t, rfl, hfirst', ha⟩

/-- A loop without results stops at its first member that fails. -/
lemma StopsAtFirst.forM (f : α → RunM σ τ Unit) (as : List α) :
    StopsAtFirst (fun as => forM as f) f as :=
  .of_mapM (fun _ _ => ()) fun first _ => forM_eq_mapM f first

end RunM

/-! ### An operator around a list -/

namespace Visitors

variable (config : Config) (v : Visitors σ)

/-- A tree is walked alike as a root and one level below another one. -/
lemma walkTree_oneDeeper (n : Node) :
    RunM.OneDeeper config (v.recorded.walkTree config n) (v.recorded.visit config.raised 2 n) := by
  rw [walkTree, drain_enter, ← visit_eq_forM]
  exact v.visit_oneDeeper config 1 n

/-- A walk of an operator without hooks goes through its parts, one level deeper, and then to its
visitor. -/
lemma walk_op_oneDeeper {o : Op} (hdefect : (Node.op o).defect? = none) :
    RunM.OneDeeper config
      (forM o.parts (v.withoutHooks.recorded.walkTree config) >>= fun _ =>
        RunM.notify v.withoutHooks.recorded.onOp o)
      (v.withoutHooks.recorded.walk config.raised (.op o)) := by
  have henter : v.withoutHooks.recorded.perform config.raised (.enter (.op o) 1) = (do
      RunM.checkDepth config.raised 1
      RunM.modifyOwn (·.reached 1)
      RunM.emit (.entered .walking (.op o) 1)) := by
    rw [← RunM.reach_empty hdefect]
    rfl
  have hleave : v.withoutHooks.recorded.perform config.raised (.leave (.op o)) = (do
      RunM.modifyOwn (·.countOp)
      RunM.notify v.withoutHooks.recorded.onOp o) := by
    change (RunM.modifyOwn _ >>= fun _ => RunM.notify _ o >>= fun _ => RunM.close {} o) = _
    rw [RunM.close_empty]
    exact congrArg _ (funext fun _ => bind_pure _)
  rw [walk_op, walkTree, drain_enter, ← visit_eq_forM, visit_eq, henter, hleave]
  simp only [bind_assoc]
  refine .after_unseen (.checkDepth_unseen config) ?_
  refine .after_unseen (.modifyOwn_unseen _) ?_
  refine .after_unseen (.emit_unseen _) ?_
  refine RunM.OneDeeper.bind (.forM fun p _ => ?_) fun _ => ?_
  · exact v.withoutHooks.walkTree_oneDeeper config p
  · exact .after_unseen (.modifyOwn_unseen _) (.notify .op v.onOp o)

end Visitors

namespace Replacers

variable (config : Config) (r : Replacers σ)

/-- Transforming an operator is the recursion, read as one on operators. -/
lemma op_eq_rewriteOp {o : Op} (h : (Node.op o).Distinct) :
    (r.op config o : RunM σ τ Op) = rewriteOp config r 1 o := by
  have htree := congrArg (· >>= fun n => pure (n.op?.getD o)) (tree_eq (τ := τ) config r h)
  simp only [tree, rewrite, bind_assoc, pure_bind, Node.op?, Option.getD_some, bind_pure] at htree
  exact htree

/-- Transforming expressions, each by itself, is the recursion on each of them. -/
lemma exprs_eq_rewriteExprs {es : List Expr} (h : ∀ e ∈ es, (Node.expr e).Distinct) :
    (r.exprs config es : RunM σ τ (List Expr)) = rewriteExprs config r 1 es := by
  have htrees : ((es.map Node.expr).mapM (r.tree config) : RunM σ τ (List Node)) =
      (es.map Node.expr).mapM (r.rewrite config 1) := by
    refine RunM.mapM_congr fun n hn => ?_
    obtain ⟨e, he, rfl⟩ := List.mem_map.1 hn
    exact tree_eq config r (h e he)
  have hexprs := mapM_tree_exprs config r es (pure : _ → RunM σ τ (List Expr))
  rw [htrees, mapM_exprs config r 1 es fun _ es => pure es] at hexprs
  rw [bind_pure, bind_pure] at hexprs
  exact hexprs.symm

/-- Expressions are rewritten alike one level deeper. -/
lemma rewriteExprs_oneDeeper (depth : Nat) (es : List Expr) :
    RunM.OneDeeper config (rewriteExprs config r.recorded depth es : RunM (Recorded σ) τ _)
      (rewriteExprs config.raised r.recorded (depth + 1) es) := by
  rw [← bind_pure (rewriteExprs config r.recorded depth es),
    ← bind_pure (rewriteExprs config.raised r.recorded (depth + 1) es),
    ← mapM_exprs config r.recorded depth es fun _ es => pure es,
    ← mapM_exprs config.raised r.recorded (depth + 1) es fun _ es => pure es]
  refine (RunM.OneDeeper.mapM fun n _ => ?_).bind fun _ => .pure _
  exact r.rewrite_oneDeeper config depth n

/-- An operator is rewritten alike one level deeper. -/
lemma rewriteOp_oneDeeper (depth : Nat) (o : Op) :
    RunM.OneDeeper config (rewriteOp config r.recorded depth o : RunM (Recorded σ) τ Op)
      (rewriteOp config.raised r.recorded (depth + 1) o) := by
  have h := (r.rewrite_oneDeeper (τ := τ) config depth (.op o)).bind fun n =>
    RunM.OneDeeper.pure (n.op?.getD o)
  simp only [rewrite, bind_assoc, pure_bind, Node.op?, Option.getD_some, bind_pure] at h
  exact h

section

variable {o : Op} {es : List Expr} {input : Op}

/-- An operator without hooks that is not defective, nor is when it is rebuilt, is handed over. -/
lemma finish_withoutHooks (hover : ∀ os es, (Node.op (o.over os es)).defect? = none)
    (results : List Node) :
    (r.withoutHooks.recorded.finish (.op o) results : RunM (Recorded σ) τ Node) =
      answer r.withoutHooks.recorded.onOp o
        (o.over (results.filterMap Node.op?) (results.filterMap Node.expr?)) >>= fun result =>
      pure (.op result) := by
  rw [finish, RunM.checkNode_of_none (hover _ _), pure_bind]
  exact bind_congr fun _ => congrArg (· >>= _) (RunM.close_empty o)

/-- The parts of an operator over expressions and an input are replaced one after the other. -/
lemma op_withoutHooks (h : (Node.op o).Distinct) (hdefect : (Node.op o).defect? = none)
    (hparts : (Node.op o).parts = es.map .expr ++ [.op input])
    (hover : ∀ os es, (Node.op (o.over os es)).defect? = none) :
    (r.withoutHooks.recorded.op config o : RunM (Recorded σ) τ Op) = (do
      RunM.checkDepth config 1
      RunM.emit (.entered .replacing (.op o) 1)
      let es' ← rewriteExprs config r.withoutHooks.recorded 2 es
      let input' ← rewriteOp config r.withoutHooks.recorded 2 input
      answer r.withoutHooks.recorded.onOp o (o.over [input'] es')) := by
  have hrewrite : (r.withoutHooks.recorded.rewrite config 1 (.op o) : RunM (Recorded σ) τ Node) =
      (do
        RunM.checkDepth config 1
        RunM.emit (.entered .replacing (.op o) 1)
        let es' ← rewriteExprs config r.withoutHooks.recorded 2 es
        let input' ← rewriteOp config r.withoutHooks.recorded 2 input
        let result ← answer r.withoutHooks.recorded.onOp o (o.over [input'] es')
        return .op result) := by
    have hreach : (RunM.reach .replacing r.withoutHooks.recorded.toHooks (.op o) 1 :
        RunM (Recorded σ) τ Unit) = RunM.emit (.entered .replacing (.op o) 1) :=
      RunM.reach_empty hdefect _ _
    rw [rewrite_eq, hparts, hreach]
    simp only [finish_withoutHooks r hover]
    rw [mapM_unary config r.withoutHooks.recorded 2 es input fun os es =>
      answer r.withoutHooks.recorded.onOp o (o.over os es) >>= fun result => pure (Node.op result)]
  have hop := congrArg (· >>= fun n => pure (n.op?.getD o)) hrewrite
  simp only [rewrite, bind_assoc, pure_bind, Node.op?, Option.getD_some, bind_pure] at hop
  rw [op_eq_rewriteOp _ _ h, hop]

/-- Replacing the nodes of such an operator is replacing those of the expressions and of the input,
each one level deeper, and then handing the operator over. -/
lemma op_oneDeeper (h : (Node.op o).Distinct) (hdefect : (Node.op o).defect? = none)
    (hparts : (Node.op o).parts = es.map .expr ++ [.op input])
    (hover : ∀ os es, (Node.op (o.over os es)).defect? = none) :
    RunM.OneDeeper config
      (r.withoutHooks.recorded.exprs config es >>= fun es' =>
        r.withoutHooks.recorded.op config input >>= fun input' =>
          answer r.withoutHooks.recorded.onOp o (o.over [input'] es') : RunM (Recorded σ) τ Op)
      (r.withoutHooks.recorded.op config.raised o) := by
  have hmem (p : Node) (hp : p ∈ es.map .expr ++ [.op input]) : p.Distinct := h.part (hparts ▸ hp)
  have hes : ∀ e ∈ es, (Node.expr e).Distinct := fun e he =>
    hmem _ (List.mem_append_left _ (List.mem_map_of_mem he))
  have hinput : (Node.op input).Distinct := hmem _ (List.mem_concat_self)
  rw [op_withoutHooks _ r h hdefect hparts hover, exprs_eq_rewriteExprs _ _ hes,
    op_eq_rewriteOp _ _ hinput]
  refine .after_unseen (.checkDepth_unseen config) (.after_unseen (.emit_unseen _) ?_)
  refine (r.withoutHooks.rewriteExprs_oneDeeper config 1 es).bind fun es' => ?_
  refine (r.withoutHooks.rewriteOp_oneDeeper config 1 input).bind fun input' => ?_
  exact .answer .op .op r.onOp o _

end

/-- The transformation of an expression has a course. -/
lemma expr_stopsWith (e : Expr) :
    (r.recorded.expr config e : RunM (Recorded σ) τ Expr).StopsWith fun _ => True := by
  have hR := RunM.congruence_onlyCut (σ := σ) 0
  exact (expr_related hR (hR.checkDepth config) r.related_onlyCut e).left

/-- The transformation of an operator has a course. -/
lemma op_stopsWith (o : Op) :
    (r.recorded.op config o : RunM (Recorded σ) τ Op).StopsWith fun _ => True := by
  have hR := RunM.congruence_onlyCut (σ := σ) 0
  exact (op_related hR (hR.checkDepth config) r.related_onlyCut o).left

/-- The `filter` begins with its conditions. -/
lemma filter_beginsWith {es : List Expr} {input : Op} (h : (Node.op (.filter es input)).Distinct)
    (s : Session (Recorded σ) τ) :
    RunM.BeginsWith config (r.withoutHooks.recorded.op config.raised (.filter es input))
      (r.withoutHooks.recorded.exprs config es)
      (fun es' => do
        let input' ← r.withoutHooks.recorded.op config input
        answer r.withoutHooks.recorded.onOp (.filter es input) (.filter es' input')) s := by
  refine RunM.OneDeeper.beginsWith ?_ (fun es' => ?_)
    (r.op_oneDeeper config h rfl rfl fun _ _ => rfl) s
  · exact .mapM fun e _ => r.withoutHooks.expr_stopsWith config e
  · refine (r.withoutHooks.op_stopsWith config input).bind fun _ => ?_
    exact stopsWith_answer .op .op r.onOp _ _

/-- The `extend` begins with its bindings. -/
lemma extend_beginsWith {b : Bindings Expr} {input : Op}
    (h : (Node.op (.extend b input)).Distinct) (s : Session (Recorded σ) τ) :
    RunM.BeginsWith config (r.withoutHooks.recorded.op config.raised (.extend b input))
      (r.withoutHooks.recorded.bindings config b)
      (fun b' => do
        let input' ← r.withoutHooks.recorded.op config input
        answer r.withoutHooks.recorded.onOp (.extend b input) (.extend b' input')) s := by
  rw [bindings_eq config _ (h.own (.head _))]
  refine RunM.OneDeeper.beginsWith ?_ (fun b' => ?_) ?_ s
  · exact (RunM.StopsWith.mapM fun e _ => r.withoutHooks.expr_stopsWith config e).bind fun _ =>
      .pure _
  · refine (r.withoutHooks.op_stopsWith config input).bind fun _ => ?_
    exact stopsWith_answer .op .op r.onOp _ _
  · rw [bind_assoc]
    simp only [pure_bind]
    exact r.op_oneDeeper config h rfl rfl fun _ _ => rfl

/-- The transformation of a list of expressions stops at the first one that fails. -/
lemma exprs_stopsAtFirst (es : List Expr) :
    RunM.StopsAtFirst (r.exprs config : List Expr → RunM σ τ (List Expr))
      (r.expr config : Expr → RunM σ τ Expr) es :=
  .of_mapM (fun _ es => es) fun _ _ => (bind_pure _).symm

/-- The transformation of a binding list stops at the first value that fails. -/
lemma bindings_stopsAtFirst {b : Bindings Expr} (h : b.Distinct) :
    RunM.StopsAtFirst
      (fun entries => (r.bindings config ⟨entries⟩ : RunM σ τ (Bindings Expr)))
      (fun p => (r.expr config p.2 : RunM σ τ Expr)) b.entries := by
  refine .of_mapM (fun entries es => ⟨(entries.map (·.1)).zip es⟩) fun first hfirst => ?_
  have hdistinct : (Bindings.mk first).Distinct := (hfirst.map _).sublist.nodup h
  rw [bindings_eq config r hdistinct, exprs, Bindings.values, List.mapM_map]
  rfl

/-- New bindings have the old variables. -/
lemma bindings_ensures {b : Bindings Expr} (h : b.Distinct) :
    (r.bindings config b : RunM σ τ (Bindings Expr)).Ensures (·.vars = b.vars) := by
  rw [bindings_eq config r h]
  have hlength : (r.exprs config b.values : RunM σ τ (List Expr)).Ensures
      (List.Forall₂ (fun _ _ => True) b.values) :=
    RunM.Ensures.mapM fun e _ => RunM.Ensures.trivial _
  refine hlength.bind fun es hes => .pure (Bindings.vars_zip ?_)
  exact hes.length_eq.symm.trans (List.length_map _)

end Replacers

namespace Visitors

variable (config : Config) (v : Visitors σ)

/-- The walk of a root stops at its first tree that fails. -/
lemma walk_stopsAtFirst (root : List α → Root) (tree : α → Node)
    (h : ∀ as, (root as).trees = as.map tree) (as : List α) :
    RunM.StopsAtFirst (fun as => v.walk config (root as)) (fun a => v.walkTree config (tree a))
      as := by
  have hwalk (as : List α) :
      v.walk config (root as) = forM as fun a => v.walkTree config (tree a) := by
    rw [walk, h]
    exact List.forM_map
  simp only [hwalk]
  exact .forM _ as

/-- The walk of an operator begins with that of its own list, and goes on with its input. -/
lemma walk_op_beginsWith {root : Root} {o input : Op}
    (hparts : o.parts = root.trees ++ [.op input]) (hdefect : (Node.op o).defect? = none)
    (s : Session (Recorded σ) Counters) :
    RunM.BeginsWith config (v.withoutHooks.recorded.walk config.raised (.op o))
      (v.withoutHooks.recorded.walk config root)
      (fun _ => do
        v.withoutHooks.recorded.walk config (.op input)
        RunM.notify v.withoutHooks.recorded.onOp o) s := by
  have hwalk (root : Root) :
      (v.withoutHooks.recorded.walk config root).StopsWith fun _ => True := by
    have hR := RunM.congruence_onlyCut (σ := σ) 0
    exact (walk_related hR (hR.checkDepth config) v.withoutHooks.related_onlyCut root).left
  refine RunM.OneDeeper.beginsWith (hwalk root) (fun _ => ?_) ?_ s
  · exact (hwalk (.op input)).bind fun _ => .notify .op v.onOp o
  · have hone := v.walk_op_oneDeeper config hdefect
    rw [hparts, List.forM_append, bind_assoc] at hone
    exact hone

end Visitors

/-- Lists of expressions by themselves, compared to the operators that hold them, whatever the
callbacks other than hooks do.

An `extend` under a raised limit, or under none if there is none, begins with what its bindings do
by themselves, a `filter` with what its conditions do. The input is next, and then the operator is
handed over with what the list gave, or visited. New bindings have the old variables in their old
order. By themselves, and with hooks as well, the lists stop at the first expression that fails. -/
theorem lists_agree_with_operators (config : Config) (v : Visitors σ) (r : Replacers ρ)
    {b : Bindings Expr} {es : List Expr} {input : Op}
    (hb : (Node.op (.extend b input)).Distinct) (hes : (Node.op (.filter es input)).Distinct)
    (s : Session (Recorded σ) Counters) (t : Session (Recorded ρ) τ) :
    RunM.BeginsWith config (r.withoutHooks.recorded.op config.raised (.extend b input))
      (r.withoutHooks.recorded.bindings config b)
      (fun b' => do
        let input' ← r.withoutHooks.recorded.op config input
        Replacers.answer r.withoutHooks.recorded.onOp (.extend b input) (.extend b' input')) t ∧
    RunM.BeginsWith config (r.withoutHooks.recorded.op config.raised (.filter es input))
      (r.withoutHooks.recorded.exprs config es)
      (fun es' => do
        let input' ← r.withoutHooks.recorded.op config input
        Replacers.answer r.withoutHooks.recorded.onOp (.filter es input) (.filter es' input')) t ∧
    RunM.BeginsWith config (v.withoutHooks.recorded.walk config.raised (.op (.extend b input)))
      (v.withoutHooks.recorded.walk config (.bindings b))
      (fun _ => do
        v.withoutHooks.recorded.walk config (.op input)
        RunM.notify v.withoutHooks.recorded.onOp (.extend b input)) s ∧
    RunM.BeginsWith config (v.withoutHooks.recorded.walk config.raised (.op (.filter es input)))
      (v.withoutHooks.recorded.walk config (.exprs es))
      (fun _ => do
        v.withoutHooks.recorded.walk config (.op input)
        RunM.notify v.withoutHooks.recorded.onOp (.filter es input)) s ∧
    (r.bindings config b : RunM ρ τ (Bindings Expr)).Ensures (·.vars = b.vars) ∧
    RunM.StopsAtFirst (fun entries => (r.bindings config ⟨entries⟩ : RunM ρ τ (Bindings Expr)))
      (fun p => (r.expr config p.2 : RunM ρ τ Expr)) b.entries ∧
    RunM.StopsAtFirst (fun es => (r.exprs config es : RunM ρ τ (List Expr)))
      (fun e => (r.expr config e : RunM ρ τ Expr)) es ∧
    RunM.StopsAtFirst (fun entries => v.walk config (.bindings ⟨entries⟩))
      (fun p => v.walkTree config (.expr p.2)) b.entries ∧
    RunM.StopsAtFirst (fun es => v.walk config (.exprs es))
      (fun e => v.walkTree config (.expr e)) es := by
  have hdistinct : b.Distinct := hb.own (.head _)
  refine ⟨r.extend_beginsWith config hb t, r.filter_beginsWith config hes t,
    v.walk_op_beginsWith config rfl rfl s, v.walk_op_beginsWith config rfl rfl s,
    r.bindings_ensures config hdistinct, r.bindings_stopsAtFirst config hdistinct,
    r.exprs_stopsAtFirst config es, ?_, ?_⟩
  · exact v.walk_stopsAtFirst config (fun entries => .bindings ⟨entries⟩) (fun p => .expr p.2)
      (fun _ => List.map_map) b.entries
  · exact v.walk_stopsAtFirst config .exprs .expr (fun _ => rfl) es

/-- A limit of two stops a walk of one condition where a limit of three stops a walk of the filter,
and each error names its limit. -/
theorem nested_begins_with_its_condition :
    let b : Bindings Expr := ⟨[(⟨"x"⟩, .var ⟨"y"⟩)]⟩
    let es : List Expr := [.existence false (.distinct .empty)]
    let v := Visitors.counting.withoutHooks.recorded
    let s : Session (Recorded Nat) Counters := ⟨⟨0, []⟩, {}, #[]⟩
    (Node.op (.extend b .empty)).Distinct ∧ (Node.op (.filter es .empty)).Distinct ∧
      RunM.BeginsWith ⟨some 2⟩ (v.walk ⟨some 3⟩ (.op (.filter es .empty)))
        (v.walk ⟨some 2⟩ (.exprs es))
        (fun _ => do
          v.walk ⟨some 2⟩ (.op .empty)
          RunM.notify v.onOp (.filter es .empty)) s ∧
      ((v.walk ⟨some 2⟩ (.exprs es)).run s).1 = .error (.tooDeep 2) ∧
      ((v.walk ⟨some 3⟩ (.op (.filter es .empty))).run s).1 = .error (.tooDeep 3) := by
  intro b es v s
  have hb : (Node.op (.extend b .empty)).Distinct := by
    refine .of_leaves (fun c hc => ?_) fun p hp => ?_
    · rw [List.mem_singleton.1 hc]
      exact List.pairwise_singleton _ _
    · rcases hp with _ | ⟨_, _ | ⟨_, ⟨⟩⟩⟩
      · exact ⟨rfl, rfl⟩
      · exact ⟨rfl, rfl⟩
  have hes : (Node.op (.filter es .empty)).Distinct := Op.distinct_nested
  obtain ⟨-, -, -, hwalk, -⟩ := lists_agree_with_operators (τ := Unit) ⟨some 2⟩ Visitors.counting
    Replacers.counting hb hes s ⟨⟨0, []⟩, (), #[]⟩
  refine ⟨hb, hes, hwalk, ?_, ?_⟩
  · have htree : v.walk ⟨some 2⟩ (.exprs es) =
        v.walkTree ⟨some 2⟩ (.expr (.existence false (.distinct .empty))) :=
      Visitors.forM_singleton _ _
    rw [htree, Visitors.walkTree, drain_enter, ← Visitors.visit_eq_forM]
    rfl
  · rw [Visitors.walk_op, Visitors.walkTree, drain_enter, ← Visitors.visit_eq_forM]
    rfl

end QueryPlan
