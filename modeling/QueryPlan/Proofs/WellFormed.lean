import QueryPlan.Proofs.DepthLimit
import QueryPlan.Proofs.RebuiltParts
import QueryPlan.Proofs.RecursiveReplace
import QueryPlan.Proofs.Unchanged

/-!
# Well-formed trees

A tree is well formed if no node in it is defective (`Node.WellFormed`). Runs check a node when they
enter it, and a run that replaces nodes checks an operator once more when it is rebuilt. That is
enough: if the callbacks turn well-formed nodes into well-formed nodes, they are handed nothing
else, and the result is well formed (`Replacers.replace_wellFormed`).

`Node.Fits` is what a walk asks of a tree (`Visitors.walkTree_ok_iff_fits`): that it is well formed
and no higher than the limit.

An expression is not checked again. It need not be, since it gets as many arguments as it had, and
the kinds of the aggregates of a group are looked at by the group.
-/

namespace QueryPlan

variable {σ τ υ α β : Type}

/-- Every function of a tree has as many arguments as it accepts, and every group binds aggregates
among its aggregates. -/
structure Node.WellFormed (n : Node) : Prop where
  functions : ∀ f args, (expr (.function f args)).Within n → f.arity.accepts args.length = true
  groups : ∀ keys aggregates input, (op (.group keys aggregates input)).Within n →
    ∀ e ∈ aggregates.values, e.isAggregate = true

namespace Node

variable {n m p : Node}

/-- A function has no defect if it accepts the number of its arguments. -/
lemma defect?_function_eq_none_iff {f : Func} {args : List Expr} :
    (expr (.function f args)).defect? = none ↔ f.arity.accepts args.length = true := by
  change ite _ _ _ = _ ↔ _
  split <;> simp_all

/-- A group has no defect if all its aggregates are aggregates. -/
lemma defect?_group_eq_none_iff {keys aggregates : Bindings Expr} {input : Op} :
    (op (.group keys aggregates input)).defect? = none ↔
      ∀ e ∈ aggregates.values, e.isAggregate = true :=
  Replacers.defect?_group_eq_none_iff keys aggregates input

/-- A tree is well formed if and only if no node in it has a defect. -/
lemma wellFormed_iff : n.WellFormed ↔ ∀ m, Within m n → m.defect? = none := by
  constructor
  · intro h m hm
    rcases m with o | e
    · cases o with
      | group keys aggregates input =>
        exact defect?_group_eq_none_iff.2 (h.groups _ _ _ hm)
      | _ => rfl
    · cases e with
      | function f args => exact defect?_function_eq_none_iff.2 (h.functions f args hm)
      | _ => rfl
  · intro h
    constructor
    · intro f args hm
      exact defect?_function_eq_none_iff.1 (h _ hm)
    · intro keys aggregates input hm
      exact defect?_group_eq_none_iff.1 (h _ hm)

/-- Well-formedness is checked node by node. -/
lemma wellFormed_iff_parts : n.WellFormed ↔ n.defect? = none ∧ ∀ p ∈ n.parts, p.WellFormed := by
  simp only [wellFormed_iff]
  constructor
  · intro h
    exact ⟨h n .here, fun p hp m hm => h m (.part hp hm)⟩
  · rintro ⟨hn, hparts⟩ m hm
    cases hm with
    | here => exact hn
    | part hp hm => exact hparts _ hp m hm

/-- The parts of a well-formed tree are well formed. -/
lemma WellFormed.part {l : Link} (h : n.WellFormed) (hp : n.partAt? l = some p) : p.WellFormed :=
  (wellFormed_iff_parts.1 h).2 p (mem_parts_of_mem_branches (mem_branches.2 hp))

/-- Counting the rows of a table is well formed. -/
lemma wellFormed_countedBy (v : Var) (table : String) : (op (.countedBy v table)).WellFormed := by
  refine wellFormed_iff_parts.2 ⟨rfl, fun p hp => ?_⟩
  refine wellFormed_iff_parts.2 ?_
  rcases hp with _ | ⟨_, _ | ⟨_, _ | ⟨_, ⟨⟩⟩⟩⟩
  all_goals exact ⟨rfl, List.forall_mem_nil _⟩

/-- The nodes in a tree are those that stand at its places. -/
lemma within_iff_at? : Within m n ↔ ∃ π, n.at? π = some m := by
  constructor
  · intro h
    induction h with
    | here => exact ⟨[], rfl⟩
    | part hp _ ih =>
      obtain ⟨l, hl⟩ := exists_partAt? hp
      obtain ⟨π, hπ⟩ := ih
      exact ⟨l :: π, at?_cons_eq_some.2 ⟨_, hl, hπ⟩⟩
  · rintro ⟨π, hπ⟩
    induction π generalizing n with
    | nil =>
      cases hπ
      exact .here
    | cons l π ih =>
      obtain ⟨p, hp, hm⟩ := at?_cons_eq_some.1 hπ
      exact .part (mem_parts_of_mem_branches (mem_branches.2 hp)) (ih hm)

/-- A well-formed tree that is no higher than the limit. -/
structure Fits (config : Config) (n : Node) : Prop where
  wellFormed : n.WellFormed
  height_le : ∀ limit, config.maxDepth = some limit → n.height ≤ limit

variable {config : Config}

/-- Without a limit the trees that fit are the well-formed ones. -/
lemma fits_unbounded_iff : n.Fits .unbounded ↔ n.WellFormed :=
  ⟨Fits.wellFormed, fun h => ⟨h, fun _ hlimit => nomatch hlimit⟩⟩

/-- A tree fits if and only if no node in it is bad. -/
lemma fits_iff :
    n.Fits config ↔ ∀ π m e, n.at? π = some m → ¬ m.Bad config (π.length + 1) e := by
  constructor
  · intro h π m e hm hbad
    have hdepth : config.refusal (π.length + 1) = none :=
      Config.refusal_eq_none_iff.2 fun limit hlimit =>
        height_le_iff.1 (h.height_le limit hlimit) π m hm
    have hdefect : m.defect? = none := wellFormed_iff.1 h.wellFormed m (within_iff_at?.2 ⟨π, hm⟩)
    rw [bad_iff, hdepth, refusal, hdefect] at hbad
    cases hbad
  · intro h
    have hnone {π : Place} {m : Node} (hm : n.at? π = some m) :
        config.refusal (π.length + 1) = none ∧ m.defect? = none := by
      rcases hr : (config.refusal (π.length + 1)).or m.refusal with _ | e
      · obtain ⟨hdepth, hrefusal⟩ := Option.or_eq_none_iff.1 hr
        exact ⟨hdepth, Option.map_eq_none_iff.1 hrefusal⟩
      · exact absurd (bad_iff.2 hr) (h π m e hm)
    constructor
    · apply wellFormed_iff.2
      intro m hm
      obtain ⟨π, hπ⟩ := within_iff_at?.1 hm
      exact (hnone hπ).2
    · intro limit hlimit
      apply height_le_iff.2
      intro π m hm
      exact Config.refusal_eq_none_iff.1 (hnone hm).1 limit hlimit

/-- The parts of a tree that fits do so as well. -/
lemma Fits.part (h : n.Fits config) (hp : p ∈ n.parts) : p.Fits config where
  wellFormed := (wellFormed_iff_parts.1 h.wellFormed).2 p hp
  height_le limit hlimit := by
    have hn := h.height_le limit hlimit
    have hlt := height_part hp
    omega

/-- The trees within one that fits do so as well. -/
lemma Fits.within (h : n.Fits config) (hm : m.Within n) : m.Fits config := by
  induction hm with
  | here => exact h
  | part hp _ ih => exact ih (h.part hp)

end Node

/-! ### Walks of well-formed trees -/

/-- If every call succeeds, a walk goes through a tree if and only if the tree fits. -/
lemma Visitors.walkTree_ok_iff_of_succeeded {config : Config} {v : Visitors σ} {n : Node}
    {s : Session (Recorded σ) Counters} {calls : List Call}
    (hcalls : ((v.recorded.walkTree config n).run s).2.caller.calls = s.caller.calls ++ calls)
    (hsucceeded : ∀ call ∈ calls, call.Succeeded) :
    (∃ a, ((v.walkTree config n).run s.forget).1 = .ok a) ↔ n.Fits config := by
  obtain ⟨c, hc, hfollows⟩ := v.walkTree_follows config n s
  obtain ⟨hevents, hresult⟩ :=
    hfollows.of_succeeded (v.walkTree_recorded config n) hcalls hsucceeded
  exact (Node.stopsAtFirstBad hc hevents hresult).ok_iff.trans Node.fits_iff.symm

/-- A walk whose visitors never fail goes through a tree if and only if the tree fits. -/
theorem Visitors.walkTree_ok_iff_fits {config : Config} {v : Visitors σ} (hv : v.NeverFail)
    {n : Node} (s : Session σ Counters) :
    (∃ a, ((v.walkTree config n).run s).1 = .ok a) ↔ n.Fits config := by
  let s' : Session (Recorded σ) Counters := ⟨⟨s.caller, []⟩, s.own, s.log⟩
  obtain ⟨calls, hcalls, hanswered⟩ := Visitors.walkTree_answered hv config n s'
  exact walkTree_ok_iff_of_succeeded hcalls hanswered

/-- A tree is well formed if and only if a walk without a limit, whose visitors never fail, goes
through it. -/
lemma Visitors.walkTree_ok_iff {v : Visitors σ} (hv : v.NeverFail) {n : Node}
    (s : Session σ Counters) :
    (∃ a, ((v.walkTree .unbounded n).run s).1 = .ok a) ↔ n.WellFormed :=
  (walkTree_ok_iff_fits hv s).trans Node.fits_unbounded_iff

/-- A loop succeeds if the runs of its members always do. -/
lemma RunM.forM_ok {f : α → RunM σ τ Unit} {as : List α}
    (h : ∀ a ∈ as, ∀ s, ∃ u, ((f a).run s).1 = .ok u) (s : Session σ τ) :
    ((forM as f : RunM σ τ Unit).run s).1 = .ok () := by
  induction as generalizing s with
  | nil => rfl
  | cons a as ih =>
    rw [List.forM_cons]
    rcases hrun : (f a).run s with ⟨e | _, t⟩
    · obtain ⟨u, hu⟩ := h a (.head _) s
      rw [hrun] at hu
      cases hu
    · rw [bind_of_ok hrun]
      exact ih (fun a' ha => h a' (.tail _ ha)) t

/-- A walk without a limit, whose visitors never fail, goes through a root of well-formed trees. -/
lemma Visitors.walk_ok {v : Visitors σ} (hv : v.NeverFail) {root : Root}
    (h : ∀ n ∈ root.trees, n.WellFormed) (s : Session σ Counters) :
    ((v.walk .unbounded root).run s).1 = .ok () :=
  RunM.forM_ok (fun n hn t => (walkTree_ok_iff hv t).2 (h n hn)) s

/-! ### Rebuilt expressions -/

/-- A rebuilt expression has as many arguments as the old one. -/
lemma Expr.defect?_over {e : Expr} {results : List Node} (h : Results e.parts results)
    (he : e.defect? = none) :
    (e.over (results.filterMap Node.op?) (results.filterMap Node.expr?)).defect? = none := by
  rcases e with v | v | ⟨f, args⟩ | ⟨f, d, _ | arg⟩ | ⟨negated, o⟩
  case function =>
    have hargs : (results.filterMap Node.expr?).length = args.length := by
      rw [h.length_exprs]
      exact congrArg List.length (Node.exprs_expr (.function f args))
    refine Node.defect?_function_eq_none_iff.2 ?_
    rw [hargs]
    exact Node.defect?_function_eq_none_iff.1 he
  all_goals rfl

/-! ### Calls and results of a run -/

/-- What holds of one member after the other holds of all of them. -/
lemma forall_of_forall₂ {R : β → Prop} {as : List α} {bs : List β}
    (h : List.Forall₂ (fun _ b => R b) as bs) : ∀ b ∈ bs, R b := by
  induction h with
  | nil => exact List.forall_mem_nil _
  | cons hb _ ih => exact List.forall_mem_cons.2 ⟨hb, ih⟩

/-- The calls that a run makes satisfy `P`, and what it gives satisfies `Q`. -/
def RunM.Meets (x : RunM (Recorded σ) τ α) (P : Call → Prop) (Q : α → Prop) : Prop :=
  ∀ s, (∃ calls, (x.run s).2.caller.calls = s.caller.calls ++ calls ∧ ∀ call ∈ calls, P call) ∧
    ∀ a, (x.run s).1 = .ok a → Q a

namespace RunM.Meets

variable {P : Call → Prop} {Q : α → Prop} {x : RunM (Recorded σ) τ α}

/-- A computation that leaves the caller alone makes no call for which anything must hold. -/
lemma of_no_call (h : ∀ s, (x.run s).2.caller = s.caller)
    (hresult : ∀ s a, (x.run s).1 = .ok a → Q a) : x.Meets P Q := by
  intro s
  refine ⟨⟨[], ?_, List.forall_mem_nil _⟩, hresult s⟩
  rw [h, List.append_nil]

/-- A value that is only returned makes no call. -/
lemma pure {a : α} (h : Q a) : (pure a : RunM (Recorded σ) τ α).Meets P Q :=
  of_no_call (fun _ => rfl) fun _ _ ha => Except.ok.inj ha ▸ h

/-- The call of a callback is the only one, and its result is that of the callback. -/
lemma call {c : CallerM σ α} {event : Event} {rebuilt : Option Node} {node : α → Option Node}
    (hcall : ∀ answer, P ⟨event, rebuilt, answer⟩)
    (hresult : ∀ s a t, c.run s = (.ok a, t) → Q a) :
    (call (CallerM.recorded event rebuilt node c) : RunM (Recorded σ) τ α).Meets P Q := by
  intro s
  refine ⟨⟨_, rfl, fun call hmem => ?_⟩, fun a ha => hresult s.caller.caller a _ (Prod.ext ha rfl)⟩
  rw [List.mem_singleton.1 hmem]
  exact hcall _

/-- Two computations meet what they have to one after the other. -/
lemma bind {R : β → Prop} {f : α → RunM (Recorded σ) τ β} (h : x.Meets P Q)
    (hf : ∀ a, Q a → (f a).Meets P R) : (x >>= f).Meets P R := by
  intro s
  obtain ⟨⟨calls, hcalls, hP⟩, hQ⟩ := h s
  rcases hx : x.run s with ⟨e | a, t⟩
  · rw [hx] at hcalls
    rw [bind_of_error hx]
    exact ⟨⟨calls, hcalls, hP⟩, fun _ ha => nomatch ha⟩
  · rw [hx] at hcalls hQ
    obtain ⟨⟨more, hmore, hP'⟩, hR⟩ := hf a (hQ a rfl) t
    rw [bind_of_ok hx]
    refine ⟨⟨calls ++ more, ?_, List.forall_mem_append.2 ⟨hP, hP'⟩⟩, hR⟩
    rw [hmore, hcalls, List.append_assoc]

/-- What a run ensures is met as well. -/
lemma and_ensures {R : α → Prop} (h : x.Meets P Q) (hR : x.Ensures R) :
    x.Meets P fun a => Q a ∧ R a :=
  fun s => ⟨(h s).1, fun a ha => ⟨(h s).2 a ha, hR (Prod.ext ha rfl)⟩⟩

/-- What is met of the result may be weakened. -/
lemma mono {R : α → Prop} (h : x.Meets P Q) (hQR : ∀ a, Q a → R a) : x.Meets P R :=
  fun s => ⟨(h s).1, fun a ha => hQR a ((h s).2 a ha)⟩

/-- The results of a loop meet, one by one, what the runs of the members do. -/
lemma mapM {R : α → β → Prop} {f : α → RunM (Recorded σ) τ β} {as : List α}
    (h : ∀ a ∈ as, (f a).Meets P (R a)) : (as.mapM f).Meets P (List.Forall₂ R as) := by
  induction as with
  | nil => exact pure .nil
  | cons a as ih =>
    rw [List.mapM_cons]
    refine (h a (.head _)).bind fun b hb => ?_
    exact (ih fun a' ha => h a' (.tail _ ha)).bind fun bs hbs => pure (.cons hb hbs)

/-- A log record makes no call. -/
lemma emit (r : LogRecord) : (emit r : RunM (Recorded σ) τ Unit).Meets P fun _ => True :=
  of_no_call (fun _ => rfl) fun _ _ _ => trivial

/-- The check of the depth makes no call. -/
lemma checkDepth (config : Config) (depth : Nat) :
    (checkDepth config depth : RunM (Recorded σ) τ Unit).Meets P fun _ => True := by
  refine of_no_call (fun s => ?_) fun _ _ _ => trivial
  unfold RunM.checkDepth
  split
  · split <;> rfl
  · rfl

/-- Only a node without a defect passes the check. -/
lemma checkNode (n : Node) :
    (checkNode n : RunM (Recorded σ) τ Unit).Meets P fun _ => n.defect? = none := by
  unfold RunM.checkNode
  rcases n.defect? with _ | d
  · exact pure rfl
  · exact of_no_call (fun _ => rfl) fun _ _ h => nomatch h

/-- A notification makes at most the call for its event. -/
lemma notify (event : α → Event) (c : Option (α → CallerM σ Unit)) (a : α)
    (h : ∀ answer, P ⟨event a, none, answer⟩) :
    (notify (c.map fun c a => CallerM.recorded (event a) none (fun _ => none) (c a)) a :
      RunM (Recorded σ) τ Unit).Meets P fun _ => True := by
  cases c with
  | none => exact pure trivial
  | some c => exact call h fun _ _ _ _ => trivial

end RunM.Meets

/-! ### Callbacks that keep nodes well formed -/

/-- A callback that was to replace a node was handed two well-formed ones. -/
def Call.HandedWellFormed (c : Call) : Prop :=
  ∀ rebuilt, c.rebuilt = some rebuilt → c.event.node.WellFormed ∧ rebuilt.WellFormed

/-- Handed two well-formed nodes, each callback that replaces nodes fails or returns another one. -/
structure Replacers.KeepsWellFormed (r : Replacers σ) : Prop where
  onOp : ∀ c ∈ r.onOp, ∀ old rebuilt s a t, (c old rebuilt).run s = (.ok a, t) →
    (Node.op old).WellFormed → (Node.op rebuilt).WellFormed → (Node.op a).WellFormed
  onExpr : ∀ c ∈ r.onExpr, ∀ old rebuilt s a t, (c old rebuilt).run s = (.ok a, t) →
    (Node.expr old).WellFormed → (Node.expr rebuilt).WellFormed → (Node.expr a).WellFormed

namespace RunM.Meets

/-- Entering a node replaces nothing, and succeeds only without a defect. -/
lemma reach (activity : Activity) (h : Hooks σ) (n : Node) (depth : Nat) :
    (reach activity h.recorded n depth : RunM (Recorded σ) τ Unit).Meets Call.HandedWellFormed
      fun _ => n.defect? = none := by
  refine (emit _).bind fun _ _ => (checkNode n).bind fun _ hn => ?_
  cases n with
  | op o =>
    dsimp only
    split
    · exact (notify .before h.before o fun _ _ h => nomatch h).mono fun _ _ => hn
    · exact pure hn
  | expr e => exact pure hn

/-- Closing a scope replaces nothing. -/
lemma close (h : Hooks σ) (o : Op) :
    (close h.recorded o : RunM (Recorded σ) τ Unit).Meets Call.HandedWellFormed fun _ => True := by
  unfold RunM.close
  split
  · exact notify .after h.after o fun _ _ h => nomatch h
  · exact pure trivial

end RunM.Meets

namespace Replacers

variable {r : Replacers σ}

/-- A replacer is handed two well-formed nodes and answers with one. -/
lemma answer_meets (event : α → Event) (node : α → Node) {old rebuilt : α}
    {c : Option (α → α → CallerM σ α)} (hevent : (event old).node = node old)
    (hc : ∀ f ∈ c, ∀ s a t, (f old rebuilt).run s = (.ok a, t) → (node a).WellFormed)
    (hold : (node old).WellFormed) (hrebuilt : (node rebuilt).WellFormed) :
    (answer
      (c.map fun c old rebuilt =>
        CallerM.recorded (event old) (some (node rebuilt)) (fun a => some (node a))
          (c old rebuilt))
      old rebuilt : RunM (Recorded σ) τ α).Meets Call.HandedWellFormed
        fun a => (node a).WellFormed := by
  cases c with
  | none => exact .pure hrebuilt
  | some f =>
    refine .call (fun _ _ h => ?_) fun s a t hrun => hc f rfl s a t hrun
    cases h
    exact ⟨hevent ▸ hold, hrebuilt⟩

/-- Leaving a well-formed node over well-formed results gives a well-formed node. -/
lemma finish_meets (hr : r.KeepsWellFormed) {n : Node} {results : List Node} (hn : n.WellFormed)
    (hresults : Results n.parts results) (hwf : ∀ a ∈ results, a.WellFormed) :
    (r.recorded.finish n results : RunM (Recorded σ) τ Node).Meets Call.HandedWellFormed
      Node.WellFormed := by
  have hover (h : (n.over results).defect? = none) : (n.over results).WellFormed := by
    rw [Node.wellFormed_iff_parts, Node.parts_over hresults]
    exact ⟨h, hwf⟩
  cases n with
  | op o =>
    refine (RunM.Meets.checkNode _).bind fun _ hdefect => ?_
    have hrebuilt := hover hdefect
    refine (answer_meets .op .op rfl (fun c hc s a t hrun => ?_) hn hrebuilt).bind fun a ha => ?_
    · exact hr.onOp c hc _ _ _ _ _ hrun hn hrebuilt
    · exact (RunM.Meets.close _ _).bind fun _ _ => .pure ha
  | expr e =>
    have hdefect := Expr.defect?_over hresults (Node.wellFormed_iff_parts.1 hn).1
    have hrebuilt := hover hdefect
    refine (answer_meets .expr .expr rfl (fun c hc s a t hrun => ?_) hn hrebuilt).bind
      fun a ha => .pure ha
    exact hr.onExpr c hc _ _ _ _ _ hrun hn hrebuilt

/-- A tree that the recursion goes through is well formed, and so is the result. -/
lemma rewrite_meets (hr : r.KeepsWellFormed) (config : Config) (depth : Nat) (n : Node) :
    (r.recorded.rewrite config depth n : RunM (Recorded σ) τ Node).Meets Call.HandedWellFormed
      fun a => n.WellFormed ∧ a.WellFormed := by
  induction n using Node.inductionOnParts generalizing depth with
  | step n ih =>
    have hpart (p : Node) (hp : p ∈ n.parts) :=
      (ih p hp (depth + 1)).and_ensures (rewrite_ensures config r.recorded (depth + 1) p)
    rw [rewrite_eq]
    refine (RunM.Meets.checkDepth _ _).bind fun _ _ => ?_
    refine (RunM.Meets.reach _ r.toHooks n depth).bind fun _ hdefect => ?_
    refine (RunM.Meets.mapM hpart).bind fun results hresults => ?_
    simp only [and_assoc] at hresults
    obtain ⟨hparts, hresults⟩ := (List.forall₂_and_left _ _).1 hresults
    have hn : n.WellFormed := Node.wellFormed_iff_parts.2 ⟨hdefect, hparts⟩
    have hwf := forall_of_forall₂ (hresults.imp fun _ _ h => h.1)
    have hsorts : Results n.parts results := hresults.imp fun _ _ h => h.2
    exact (finish_meets hr hn hsorts hwf).mono fun a ha => ⟨hn, ha⟩

/-! ### Roots -/

end Replacers

/-- The trees of a root over results are the results. -/
lemma Root.trees_over {root : Root} {results : List Node} (h : Results root.trees results) :
    (root.over results).trees = results := by
  have hexprs (es : List Expr) (h : Results (es.map .expr) results) :
      (results.filterMap Node.expr?).map .expr = results ∧
        (results.filterMap Node.expr?).length = es.length := by
    have hlength := h.length_exprs
    rw [Node.filterMap_expr?_map] at hlength
    rw [← List.append_nil (es.map _)] at h
    obtain ⟨es', rest, rfl, ⟨⟩⟩ := Results.of_exprs h
    rw [List.append_nil, Node.filterMap_expr?_map]
    exact ⟨rfl, by rwa [List.append_nil, Node.filterMap_expr?_map] at hlength⟩
  cases root with
  | op o =>
    cases h with
    | @cons _ a _ _ hsort hrest =>
      cases hrest
      cases a with
      | op o => rfl
      | expr e => exact absurd hsort.symm Node.sort_op_ne_sort_expr
  | expr e =>
    cases h with
    | @cons _ a _ _ hsort hrest =>
      cases hrest
      cases a with
      | op o => exact absurd hsort Node.sort_op_ne_sort_expr
      | expr e => rfl
  | exprs es => exact (hexprs es h).1
  | bindings b =>
    obtain ⟨hresults, hlength⟩ := hexprs b.values h
    rw [Bindings.values, List.length_map] at hlength
    show (Bindings.values ⟨b.vars.zip _⟩).map _ = _
    rw [Bindings.values_zip hlength, hresults]

namespace Replacers

variable {r : Replacers σ}

/-- The transformation of a tree hands on well-formed nodes only, and gives one of its sort. -/
lemma tree_meets (hr : r.KeepsWellFormed) (config : Config) {n : Node} (hn : n.Distinct) :
    (r.recorded.tree config n : RunM (Recorded σ) τ Node).Meets Call.HandedWellFormed
      fun a => a.WellFormed ∧ a.sort = n.sort := by
  rw [tree_eq config r.recorded hn]
  have hsort := rewrite_ensures (τ := τ) config r.recorded 1 n
  exact ((rewrite_meets hr config 1 n).and_ensures hsort).mono fun a h => ⟨h.1.2, h.2⟩

/-- The transformation of a root hands on well-formed nodes only, and gives well-formed trees. -/
lemma replace_meets (hr : r.KeepsWellFormed) (config : Config) {root : Root} (h : root.Distinct) :
    (r.recorded.replace config root : RunM (Recorded σ) τ Root).Meets Call.HandedWellFormed
      fun root' => ∀ n ∈ root'.trees, n.WellFormed := by
  rw [replace_eq_trees config r.recorded h]
  refine (RunM.Meets.mapM fun n hn => tree_meets hr config (h.2 n hn)).bind ?_
  intro results hresults
  rw [← Root.trees_over (hresults.imp fun _ _ => And.right)] at hresults
  exact .pure (forall_of_forall₂ (hresults.imp fun _ _ => And.left))

/-- Callbacks that keep nodes well formed are handed well-formed nodes only, the old one as well as
the rebuilt one. If the run succeeds, its result is well formed, and a walk goes through it. -/
theorem replace_wellFormed (config : Config) (hr : r.KeepsWellFormed) {root : Root}
    (h : root.Distinct) (s : Session (Recorded σ) τ) :
    (∃ calls,
      ((r.recorded.replace config root).run s).2.caller.calls = s.caller.calls ++ calls ∧
      ∀ call ∈ calls, call.HandedWellFormed) ∧
    ∀ root', ((r.replace config root).run s.forget).1 = .ok root' →
      (∀ n ∈ root'.trees, n.WellFormed) ∧
      ∀ t : Session υ Counters,
        ((({} : Visitors υ).walk .unbounded root').run t).1 = .ok () := by
  obtain ⟨hcalls, hresult⟩ := replace_meets (τ := τ) hr config h s
  refine ⟨hcalls, fun root' hroot' => ?_⟩
  rw [replace_recorded config r root s] at hroot'
  have hwf := hresult root' hroot'
  exact ⟨hwf, Visitors.walk_ok Visitors.neverFail_empty hwf⟩

/-- The callbacks that retarget scans keep well-formed nodes well formed. -/
lemma keepsWellFormed_retargetScans (source target : String) :
    (retargetScans source target).KeepsWellFormed := by
  refine ⟨?_, fun _ h => nomatch h⟩
  rintro c ⟨⟩ old rebuilt s a t hrun - hrebuilt
  cases hrun
  cases rebuilt with
  | scan => exact Node.wellFormed_iff_parts.2 ⟨rfl, List.forall_mem_nil _⟩
  | _ => exact hrebuilt

/-- A count over a table is retargeted to a well-formed count over the other table. -/
theorem retarget_countedBy_wellFormed :
    let root := Root.op (.countedBy ⟨"k"⟩ "T")
    (retargetScans "T" "U").KeepsWellFormed ∧ root.Distinct ∧
      (((retargetScans "T" "U").replace {} root).run (⟨(), (), #[]⟩ : Session Unit Unit)).1 =
        .ok (.op (.countedBy ⟨"k"⟩ "U")) ∧
      (Node.op (.countedBy ⟨"k"⟩ "U")).WellFormed := by
  intro root
  have hkeeps := keepsWellFormed_retargetScans "T" "U"
  have hroot : root.Distinct := Root.distinct_op (Op.distinct_countedBy _ _)
  have hok : (((retargetScans "T" "U").replace {} root).run (⟨(), (), #[]⟩ : Session Unit Unit)).1 =
      .ok (.op (.countedBy ⟨"k"⟩ "U")) := by
    simp only [root, replace, op, drain, Step.follow, Node.schedule, Node.parts, Op.parts,
      Op.countedBy, Expr.parts, Bindings.values, List.map_cons, List.map_nil, List.cons_append,
      List.nil_append]
    rfl
  obtain ⟨-, hresult⟩ :=
    replace_wellFormed (υ := Unit) {} hkeeps hroot (⟨⟨(), []⟩, (), #[]⟩ : Session _ Unit)
  exact ⟨hkeeps, hroot, hok, (hresult _ hok).1 _ (.head _)⟩

end Replacers

end QueryPlan
