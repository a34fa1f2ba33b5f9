import QueryPlan.Proofs.Answers
import QueryPlan.Proofs.RebuiltParts
import QueryPlan.Proofs.RecursiveReplace
import QueryPlan.Proofs.RecursiveWalk
import QueryPlan.Proofs.ReplaceErrors
import QueryPlan.Proofs.SameSchedule

/-!
# Runs that keep every node

If there are no replacing callbacks, or they hand back the rebuilt nodes that they are given, a run
that replaces nodes gives its root back, or it fails with the error with which a walk of the root
fails (`Replacers.replace_unchanged`).

There are two parts to it. A result can only be the tree itself: a node over its own parts is that
node again (`Node.over_parts`), and the recursion keeps to that (`Replacers.rewrite_ensures_eq`).
And there is a result exactly if the walk succeeds, since both runs go by courses that stop alike
(`Replacers.tree_outcome`).
-/

namespace QueryPlan

variable {σ ρ τ υ α β : Type}

/-! ### Results -/

/-- Callbacks that never fail and hand back every node as it was rebuilt. -/
structure Replacers.KeepsNodes (r : Replacers σ) : Prop where
  hooks : r.toHooks.NeverFail
  onOp : ∀ c ∈ r.onOp, ∀ old rebuilt s, ∃ t, (c old rebuilt).run s = (.ok rebuilt, t)
  onExpr : ∀ c ∈ r.onExpr, ∀ old rebuilt s, ∃ t, (c old rebuilt).run s = (.ok rebuilt, t)

/-- Where there are no hooks none fails. -/
lemma Hooks.neverFail_empty : ({} : Hooks σ).NeverFail :=
  ⟨(fun _ h => nomatch h), fun _ h => nomatch h⟩

/-- Where there are no visitors none fails. -/
lemma Visitors.neverFail_empty : ({} : Visitors σ).NeverFail :=
  ⟨Hooks.neverFail_empty, (fun _ h => nomatch h), fun _ h => nomatch h⟩

/-- A root over its own trees is that root again. -/
lemma Root.over_trees (root : Root) : root.over root.trees = root := by
  cases root with
  | op o => rfl
  | expr e => rfl
  | exprs es => exact congrArg Root.exprs (Node.filterMap_expr?_map es)
  | bindings b =>
    show Root.bindings ⟨b.vars.zip ((b.values.map Node.expr).filterMap Node.expr?)⟩ = _
    rw [Node.filterMap_expr?_map, b.zip_vars_values]

namespace Replacers

variable {config : Config} {r : Replacers ρ} {n : Node}

/-- Where there are no replacing callbacks every node is kept. -/
lemma keepsNodes_empty : ({} : Replacers σ).KeepsNodes :=
  ⟨Hooks.neverFail_empty, (fun _ h => nomatch h), fun _ h => nomatch h⟩

/-- Callbacks that hand back the rebuilt nodes. -/
def keeping : Replacers σ where
  onOp := some fun _ rebuilt => pure rebuilt
  onExpr := some fun _ rebuilt => pure rebuilt

/-- Callbacks that hand back the rebuilt nodes keep them. -/
lemma keepsNodes_keeping : (keeping : Replacers σ).KeepsNodes := by
  refine ⟨Hooks.neverFail_empty, ?_, ?_⟩
  · rintro c ⟨⟩ old rebuilt s
    exact ⟨s, rfl⟩
  · rintro c ⟨⟩ old rebuilt s
    exact ⟨s, rfl⟩

namespace KeepsNodes

/-- Callbacks that keep nodes never fail. -/
lemma neverFail (hr : r.KeepsNodes) : r.NeverFail where
  hooks := hr.hooks
  onOp c hc old rebuilt s := ⟨rebuilt, hr.onOp c hc old rebuilt s⟩
  onExpr c hc old rebuilt s := ⟨rebuilt, hr.onExpr c hc old rebuilt s⟩

/-- Callbacks that keep nodes return aggregates for aggregates. -/
lemma returnsAggregates (hr : r.KeepsNodes) : r.ReturnsAggregates := by
  intro c hc old rebuilt a s s' hrun hrebuilt
  obtain ⟨t, ht⟩ := hr.onExpr c hc old rebuilt s
  cases ht.symm.trans hrun
  exact hrebuilt

end KeepsNodes

/-- If the callbacks answer the rebuilt nodes by `k`, the recursion gives for a tree what comes of
that from the bottom up. -/
lemma rewrite_ensures_of_answer {k a : Node → Node}
    (hop : ∀ old rebuilt,
      (answer r.onOp old rebuilt : RunM ρ τ Op).Ensures fun o => k (.op rebuilt) = .op o)
    (hexpr : ∀ old rebuilt,
      (answer r.onExpr old rebuilt : RunM ρ τ Expr).Ensures fun e => k (.expr rebuilt) = .expr e)
    (ha : ∀ n, k (n.over (n.parts.map a)) = a n) (n : Node) (depth : Nat) :
    (r.rewrite config depth n : RunM ρ τ Node).Ensures (a n = ·) := by
  have hfinish (n : Node) (results : List Node) :
      (r.finish n results : RunM ρ τ Node).Ensures (k (n.over results) = ·) := by
    cases n with
    | op o =>
      refine (RunM.Ensures.trivial _).bind fun _ _ => ?_
      refine (hop o _).bind fun o' ho' => ?_
      exact (RunM.Ensures.trivial _).bind fun _ _ => .pure ho'
    | expr e => exact (hexpr e _).bind fun e' he' => .pure he'
  induction n using Node.inductionOnParts generalizing depth with
  | step n ih =>
    rw [rewrite_eq]
    refine (RunM.Ensures.trivial _).bind fun _ _ => (RunM.Ensures.trivial _).bind fun _ _ => ?_
    refine (RunM.Ensures.mapM fun p hp => ih p hp (depth + 1)).bind fun results hresults => ?_
    have hparts : n.parts.map a = results :=
      List.forall₂_eq_eq_eq ▸ List.forall₂_map_left_iff.2 hresults
    have hover : k (n.over results) = a n := hparts ▸ ha n
    exact hover ▸ hfinish n results

/-- The answer of callbacks that keep nodes is the rebuilt node. -/
lemma answer_ensures_eq {c : Option (α → α → CallerM ρ α)}
    (h : ∀ f ∈ c, ∀ old rebuilt s, ∃ t, (f old rebuilt).run s = (.ok rebuilt, t))
    (old rebuilt : α) : (answer c old rebuilt : RunM ρ τ α).Ensures (rebuilt = ·) := by
  cases c with
  | none => exact .pure rfl
  | some f =>
    intro s a t hrun
    obtain ⟨u, hu⟩ := h f rfl old rebuilt s.caller
    have hfst := congrArg Prod.fst hrun
    change ((f old rebuilt).run s.caller).1 = .ok a at hfst
    rw [hu] at hfst
    cases hfst
    rfl

/-- Whatever the recursion gives for a tree is the tree. -/
lemma rewrite_ensures_eq (hr : r.KeepsNodes) (n : Node) (depth : Nat) :
    (r.rewrite config depth n : RunM ρ τ Node).Ensures (n = ·) := by
  apply rewrite_ensures_of_answer (k := id) (a := id)
  · intro old rebuilt s o t hrun
    exact congrArg Node.op (answer_ensures_eq hr.onOp old rebuilt hrun)
  · intro old rebuilt s e t hrun
    exact congrArg Node.expr (answer_ensures_eq hr.onExpr old rebuilt hrun)
  · intro n
    rw [List.map_id]
    exact n.over_parts

end Replacers

/-! ### Errors -/

/-- If the courses of each step stop alike, so do the courses of all steps together. -/
lemma Courses.stop_eq {R R' : Step → Course → Prop}
    (hR : ∀ s c d, R s c → R' s d → c.stop = d.stop) {steps : List Step} {c d : Course}
    (hc : Courses R steps c) (hd : Courses R' steps d) : c.stop = d.stop := by
  induction hc generalizing d with
  | nil =>
    cases hd
    rfl
  | cons hc _ ih =>
    cases hd with
    | cons hd hrest => rw [Course.stop_andThen, Course.stop_andThen, hR _ _ _ hc hd, ih hrest]

/-- A run whose callbacks return aggregates for aggregates ends in the way a walk does. -/
lemma Replacers.tree_outcome {v : Visitors σ} {r : Replacers ρ} {n : Node} (hv : v.NeverFail)
    (hr : r.NeverFail) (haggregates : r.ReturnsAggregates) (hn : n.Distinct) (config : Config)
    (s : Session σ Counters) (t : Session ρ τ) :
    ((r.tree config n).run t).1.map (fun _ => ()) =
      ((v.walkTree config n).run s).1.map fun _ => () := by
  let s' : Session (Recorded σ) Counters := ⟨⟨s.caller, []⟩, s.own, s.log⟩
  let t' : Session (Recorded ρ) τ := ⟨⟨t.caller, []⟩, t.own, t.log⟩
  obtain ⟨c, hc, hwalk⟩ := v.walkTree_follows config n s'
  obtain ⟨walked, hwalked, hanswered⟩ := Visitors.walkTree_answered hv config n s'
  obtain ⟨-, hc'⟩ := hwalk.of_succeeded (v.walkTree_recorded config n) hwalked hanswered
  have hkeeps : r.KeepsAggregates config n t :=
    keepsAggregates_of_onExpr haggregates hn t
  obtain ⟨d, hd, htree⟩ := tree_follows_walk (s := t') hn hkeeps
  obtain ⟨replaced, hreplaced, hanswered'⟩ := tree_answered (τ := τ) hr config n t'
  obtain ⟨-, hd'⟩ := htree.of_succeeded (r.tree_recorded config n) hreplaced hanswered'
  have hstop : d.stop = c.stop := by
    refine hd.stop_eq (fun step c d hc hd => ?_) hc
    rw [hc, hd, Step.stop_course, Step.stop_course]
  refine hd'.trans (.trans ?_ hc'.symm)
  rw [Course.outcome, hstop]
  rfl

/-! ### Roots -/

/-- The walk of a root that is an operator is that of its tree. -/
lemma Visitors.walk_op (config : Config) (v : Visitors σ) (o : Op) :
    v.walk config (.op o) = v.walkTree config (.op o) :=
  forM_singleton _ _

/-- The runs of `y` end like those of `x`, with `a` for a result. -/
def RunM.EndsLike (y : RunM ρ τ α) (x : RunM σ υ Unit) (a : α) : Prop :=
  ∀ s t, (y.run t).1 = (x.run s).1.map fun _ => a

namespace RunM.EndsLike

variable {y : RunM ρ τ α} {x z : RunM σ υ Unit} {a : α} {b : β}

/-- A value that is only returned ends like nothing done. -/
lemma pure (a : α) : EndsLike (pure a : RunM ρ τ α) (pure () : RunM σ υ Unit) a :=
  fun _ _ => rfl

/-- Two computations after each other end like two others if each does. -/
lemma bind {f : α → RunM ρ τ β} (h : y.EndsLike x a) (hf : (f a).EndsLike z b) :
    (y >>= f).EndsLike (x >>= fun _ => z) b := by
  intro s t
  have hend := h s t
  rcases hx : x.run s with ⟨e | _, s'⟩
  · rcases hy : y.run t with ⟨e' | a', t'⟩
    · rw [hx, hy] at hend
      rw [bind_of_error hx, bind_of_error hy]
      cases hend
      rfl
    · rw [hx, hy] at hend
      cases hend
  · rcases hy : y.run t with ⟨e' | a', t'⟩
    · rw [hx, hy] at hend
      cases hend
    · rw [hx, hy] at hend
      cases hend
      rw [bind_of_ok hx, bind_of_ok hy]
      exact hf s' t'

/-- A result may be changed where two runs end alike. -/
lemma map (h : y.EndsLike x a) (g : α → β) :
    (y >>= fun a => Pure.pure (g a)).EndsLike x (g a) := by
  have hbind := h.bind (f := fun a => Pure.pure (g a)) (pure (g a))
  rwa [bind_pure_unit] at hbind

/-- Runs that end alike with changed results end alike with the results. -/
lemma of_map {g : α → β} (hg : Function.Injective g)
    (h : (y >>= fun a => Pure.pure (g a)).EndsLike x (g a)) : y.EndsLike x a := by
  intro s t
  have hend := h s t
  rcases hy : y.run t with ⟨e | a', t'⟩
  · rw [bind_of_error hy] at hend
    rcases hx : (x.run s).1 with e' | _
    · rw [hx] at hend
      cases hend
      rfl
    · rw [hx] at hend
      cases hend
  · rw [bind_of_ok hy] at hend
    rcases hx : (x.run s).1 with e' | _
    · rw [hx] at hend
      cases hend
    · rw [hx] at hend
      exact congrArg Except.ok (hg (Except.ok.inj hend))

/-- Loops end alike if the runs of their members do. -/
lemma mapM {f : α → RunM ρ τ β} {g : α → RunM σ υ Unit} {k : α → β} {as : List α}
    (h : ∀ a ∈ as, (f a).EndsLike (g a) (k a)) : (as.mapM f).EndsLike (forM as g) (as.map k) := by
  induction as with
  | nil => exact pure []
  | cons a as ih =>
    rw [List.mapM_cons, List.forM_cons]
    exact (h a (.head _)).bind ((ih fun a' ha => h a' (.tail _ ha)).map (k a :: ·))

end RunM.EndsLike

namespace Replacers

variable {config : Config} {v : Visitors σ} {r : Replacers ρ}

/-- A transformation that can only give one tree ends as the walk does. -/
lemma tree_endsLike_of_ensures (hv : v.NeverFail) (hr : r.NeverFail)
    (haggregates : r.ReturnsAggregates) {n a : Node} (hn : n.Distinct)
    (ha : (r.rewrite config 1 n : RunM ρ τ Node).Ensures (a = ·)) :
    (r.tree config n : RunM ρ τ Node).EndsLike (v.walkTree config n) a := by
  intro s t
  have houtcome := tree_outcome hv hr haggregates hn config s t
  rcases htree : (r.tree config n).run t with ⟨e | a', t'⟩
  · rw [htree] at houtcome
    rcases hwalk : ((v.walkTree config n).run s).1 with e' | _
    · rw [hwalk] at houtcome
      cases houtcome
      rfl
    · rw [hwalk] at houtcome
      cases houtcome
  · have ha' : a = a' := by
      rw [tree_eq config r hn] at htree
      exact ha htree
    rw [htree] at houtcome
    rcases hwalk : ((v.walkTree config n).run s).1 with e' | _
    · rw [hwalk] at houtcome
      cases houtcome
    · rw [← ha']
      rfl

/-- A transformation that keeps all nodes ends as the walk does. -/
lemma tree_endsLike (hv : v.NeverFail) (hr : r.KeepsNodes) {n : Node} (hn : n.Distinct) :
    (r.tree config n : RunM ρ τ Node).EndsLike (v.walkTree config n) n :=
  tree_endsLike_of_ensures hv hr.neverFail hr.returnsAggregates hn (rewrite_ensures_eq hr n 1)

/-- If every node is kept, replacing the nodes of a root gives the root back where a walk of it
succeeds, and fails with the error of the walk where that fails. -/
theorem replace_unchanged (config : Config) (v : Visitors σ) (r : Replacers ρ) (hv : v.NeverFail)
    (hr : r.KeepsNodes) (root : Root) (h : root.Distinct) (s : Session σ Counters)
    (t : Session ρ τ) :
    ((r.replace config root).run t).1 = ((v.walk config root).run s).1.map fun _ => root := by
  suffices hends : (r.replace config root : RunM ρ τ Root).EndsLike (v.walk config root) root from
    hends s t
  have htrees : (root.trees.mapM (r.tree config) : RunM ρ τ (List Node)).EndsLike
      (v.walk config root) (root.trees.map id) :=
    RunM.EndsLike.mapM fun n hn => tree_endsLike hv hr (h.2 n hn)
  have hends := htrees.map root.over
  rwa [List.map_id, root.over_trees, ← replace_eq_trees config r h] at hends

/-- A count over a table comes back as it is, without callbacks and from callbacks that hand back
the rebuilt nodes. -/
theorem countedBy_unchanged :
    let root := Root.op (.countedBy ⟨"k"⟩ "T")
    ({} : Visitors Unit).NeverFail ∧ ({} : Replacers Unit).KeepsNodes ∧
      (keeping : Replacers Unit).KeepsNodes ∧ root.Distinct ∧
      ((({} : Replacers Unit).replace {} root).run (⟨(), (), #[]⟩ : Session Unit Unit)).1 =
        .ok root ∧
      (((keeping : Replacers Unit).replace {} root).run (⟨(), (), #[]⟩ : Session Unit Unit)).1 =
        .ok root := by
  intro root
  have hroot : root.Distinct := Root.distinct_op (Op.distinct_countedBy _ _)
  have hwalk : ((({} : Visitors Unit).walk {} root).run ⟨(), {}, #[]⟩).1 = .ok () := by
    rw [Visitors.walk_op, Visitors.walkTree, drain_enter, ← Visitors.visit_eq_forM]
    rfl
  have hkept (r : Replacers Unit) (hr : r.KeepsNodes) :
      ((r.replace {} root).run (⟨(), (), #[]⟩ : Session Unit Unit)).1 = .ok root := by
    rw [replace_unchanged {} {} r Visitors.neverFail_empty hr root hroot ⟨(), {}, #[]⟩, hwalk]
    rfl
  exact ⟨Visitors.neverFail_empty, keepsNodes_empty, keepsNodes_keeping, hroot,
    hkept _ keepsNodes_empty, hkept _ keepsNodes_keeping⟩

end Replacers

end QueryPlan
