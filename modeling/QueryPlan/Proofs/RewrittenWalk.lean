import QueryPlan.Proofs.LeafMap
import QueryPlan.Proofs.WalkCounters
import QueryPlan.Variables

/-!
# Walks of rewritten trees

It makes no difference whether the leaves of a tree are rewritten before a walk or after it: the
walk of the new tree fires the events of the old one, each for what becomes of its node, and counts
the same (`LeafMap.walk_runOp`). The events of a tree are fixed before any walk, so the trees are
all that has to be compared (`LeafMap.events_apply`).

The variables of a plan are an example. They are what a record of the walk of its expressions shows
(`Op.vars_eq`), and so they are renamed with the plan.
-/

namespace QueryPlan

variable {σ ρ : Type} {config : Config} {n : Node}

/-- Two events of one kind, for nodes that are related. -/
inductive Event.Alike (R : Node → Node → Prop) : Event → Event → Prop where
  | before {o o'} :
    R (.op o) (.op o') →
    Alike R (.before o) (.before o')
  | op {o o'} :
    R (.op o) (.op o') →
    Alike R (.op o) (.op o')
  | expr {e e'} :
    R (.expr e) (.expr e') →
    Alike R (.expr e) (.expr e')
  | after {o o'} :
    R (.op o) (.op o') →
    Alike R (.after o) (.after o')

namespace Event.Alike

variable {R : Node → Node → Prop} {a b : Event}

/-- Who hears of the one event hears of the other. -/
lemma hears (v : Visitors σ) (h : Alike R a b) : v.hears a = v.hears b := by
  cases h <;> rfl

end Event.Alike

namespace LeafMap

variable (f : LeafMap)

/-! ### Trees -/

section

variable {R : Node → Node → Prop}

/-- The events before the parts of a node are like those of what becomes of it. -/
lemma opening_apply (h : R n (f.apply n)) :
    List.Forall₂ (Event.Alike R) n.opening (f.apply n).opening := by
  cases n with
  | op o =>
    obtain ⟨o', ho', hcomposite⟩ := f.apply_op o
    rw [ho'] at h ⊢
    rw [Node.opening, Node.opening, hcomposite]
    split
    · exact .cons (.before h) .nil
    · exact .nil
  | expr e =>
    obtain ⟨e', he'⟩ := f.apply_expr e
    rw [he']
    exact .nil

/-- The events after the parts of a node are like those of what becomes of it. -/
lemma closing_apply (h : R n (f.apply n)) :
    List.Forall₂ (Event.Alike R) n.closing (f.apply n).closing := by
  cases n with
  | op o =>
    obtain ⟨o', ho', hcomposite⟩ := f.apply_op o
    rw [ho'] at h ⊢
    rw [Node.closing, Node.closing, hcomposite]
    apply List.Forall₂.cons (.op h)
    split
    · exact .cons (.after h) .nil
    · exact .nil
  | expr e =>
    obtain ⟨e', he'⟩ := f.apply_expr e
    rw [he'] at h ⊢
    exact .cons (.expr h) .nil

/-- The events of the new tree are those of the old one, each for what becomes of its node. -/
theorem events_apply (h : ∀ m : Node, m.Within n → R m (f.apply m)) :
    List.Forall₂ (Event.Alike R) n.events (f.apply n).events := by
  induction n using Node.inductionOnParts with
  | step n ih =>
    have hparts : List.Forall₂ (Event.Alike R) (n.parts.flatMap Node.events)
        ((n.parts.map f.apply).flatMap Node.events) := by
      rw [List.flatMap_map]
      apply List.rel_flatMap (R := fun p q => p = q ∧ p ∈ n.parts)
      · exact List.forall₂_same.2 fun p hp => ⟨rfl, hp⟩
      · rintro p _ ⟨rfl, hp⟩
        exact ih p hp fun m hm => h m (.part hp hm)
    rw [n.events_eq, (f.apply n).events_eq, parts_apply]
    have hopening := f.opening_apply (h n .here)
    have hclosing := f.closing_apply (h n .here)
    exact List.rel_append (List.rel_append hopening hparts) hclosing

end

/-- A rewritten tree has as many nodes of each sort. -/
lemma count_apply (n : Node) (sort : String) : (f.apply n).count sort = n.count sort := by
  induction n using Node.inductionOnParts with
  | step n ih =>
    have hparts : n.parts.map ((·.count sort) ∘ f.apply) = n.parts.map (·.count sort) :=
      List.map_congr_left ih
    rw [Node.count_eq, parts_apply, List.map_map, hparts, sort_apply, ← Node.count_eq]

/-- The new tree is as large and as high as the old one. -/
lemma ofTrees_apply (n : Node) : Counters.ofTrees [f.apply n] = Counters.ofTrees [n] := by
  simp only [Counters.ofTrees, List.map_cons, List.map_nil, count_apply, height_apply]

end LeafMap

/-! ### Walks -/

/-- A walk that succeeds has called the visitors for all events of the tree that they hear of, and
the tree fits. -/
lemma Visitors.walkTree_fits {v : Visitors σ} {s : Session (Recorded σ) Counters}
    (h : ((v.walkTree config n).run s.forget).1 = .ok ()) :
    n.Fits config ∧
      ∃ calls, ((v.recorded.walkTree config n).run s).2.caller.calls = s.caller.calls ++ calls ∧
        calls.map (·.event) = n.events.filter v.hears := by
  obtain ⟨calls, hcalls, hscheduled⟩ := v.walkTree_scheduled config n s
  have hsucceeded := hscheduled.succeeded h
  exact ⟨(walkTree_ok_iff_of_succeeded hcalls hsucceeded).1 ⟨(), h⟩, calls, hcalls,
    hscheduled.whole () h⟩

namespace LeafMap

variable (f : LeafMap)

/-- If a walk of a tree succeeds, so does the walk of the new tree by visitors that hear of the same
events and never fail. They are called for the same events, each time for what a run makes of the
node. -/
lemma walkTree_apply (hn : n.Distinct) {v : Visitors σ} {v' : Visitors ρ} (hv' : v'.NeverFail)
    (hhears : v'.hears = v.hears) {s : Session (Recorded σ) Counters}
    (s' : Session (Recorded ρ) Counters)
    (hwalk : ((v.walkTree config n).run s.forget).1 = .ok ()) :
    ((v'.walkTree config (f.apply n)).run s'.forget).1 = .ok () ∧
      ∃ calls calls',
        ((v.recorded.walkTree config n).run s).2.caller.calls = s.caller.calls ++ calls ∧
        ((v'.recorded.walkTree config (f.apply n)).run s').2.caller.calls =
          s'.caller.calls ++ calls' ∧
        List.Forall₂ (Event.Alike fun m m' => f.apply m = m' ∧ f.run config m = .ok m')
          (calls.map (·.event)) (calls'.map (·.event)) := by
  obtain ⟨hfits, calls, hcalls, hevents⟩ := Visitors.walkTree_fits hwalk
  obtain ⟨_, hok⟩ := (Visitors.walkTree_ok_iff_fits hv' s'.forget).2 (f.fits_apply hn hfits)
  obtain ⟨-, calls', hcalls', hevents'⟩ := Visitors.walkTree_fits hok
  refine ⟨hok, calls, calls', hcalls, hcalls', ?_⟩
  rw [hevents, hevents', hhears]
  apply List.rel_filter
  · intro a b hab
    show v.hears a = true ↔ v.hears b = true
    rw [hab.hears v]
  · apply f.events_apply
    intro m hm
    exact ⟨rfl, run_of_fits (hn.within hm) (hfits.within hm)⟩

variable {f}

/-- The walk of the operator that a run gives, beside the walk of the old one. -/
lemma walk_runOp {o : Op} (ho : (Node.op o).Distinct) {v : Visitors σ} {v' : Visitors ρ}
    (hv' : v'.NeverFail) (hhears : v'.hears = v.hears) {s : Session (Recorded σ) Counters}
    (s' : Session (Recorded ρ) Counters) (hown : s'.own = s.own) {t : Session σ Counters}
    (hwalk : (v.walk config (.op o)).run s.forget = (.ok (), t)) :
    ∃ o' t' calls calls',
      f.runOp config o = .ok o' ∧
      (v'.walk config (.op o')).run s'.forget = (.ok (), t') ∧
      t'.own = t.own ∧
      ((v.recorded.walk config (.op o)).run s).2.caller.calls = s.caller.calls ++ calls ∧
      ((v'.recorded.walk config (.op o')).run s').2.caller.calls = s'.caller.calls ++ calls' ∧
      List.Forall₂ (Event.Alike fun m m' => f.apply m = m' ∧ f.run config m = .ok m')
        (calls.map (·.event)) (calls'.map (·.event)) := by
  have hwalkTree : ((v.walkTree config (.op o)).run s.forget).1 = .ok () := by
    rw [← v.walk_op, hwalk]
  obtain ⟨hfits, -⟩ := Visitors.walkTree_fits hwalkTree
  obtain ⟨o', ho', -⟩ := f.apply_op o
  obtain ⟨hok, calls, calls', hcalls, hcalls', halike⟩ :=
    f.walkTree_apply ho hv' hhears s' hwalkTree
  rw [ho', ← v'.walk_op] at hok
  rw [← v.recorded.walk_op] at hcalls
  rw [ho', ← v'.recorded.walk_op] at hcalls'
  have hwalk' : (v'.walk config (.op o')).run s'.forget =
      (.ok (), ((v'.walk config (.op o')).run s'.forget).2) := Prod.ext hok rfl
  refine ⟨o', _, calls, calls', runOp_of_fits ho ho' hfits, hwalk', ?_, hcalls, hcalls', halike⟩
  have hown' : s'.forget.own = s.forget.own := hown
  have htrees : Counters.ofTrees (Root.op o').trees = .ofTrees (Root.op o).trees := by
    have htree := f.ofTrees_apply (.op o)
    rwa [ho'] at htree
  rw [Visitors.own_of_walk_ok hwalk', Visitors.own_of_walk_ok hwalk, hown', htrees]

end LeafMap

/-! ### Variables -/

/-- Hears of expressions and does nothing. -/
def Visitors.exprsOnly : Visitors Unit where
  onExpr := some fun _ => pure ()

/-- The visitors that only hear of expressions never fail. -/
lemma Visitors.neverFail_exprsOnly : exprsOnly.NeverFail := by
  refine ⟨Hooks.neverFail_empty, (fun _ h => nomatch h), ?_⟩
  rintro c ⟨⟩ e s
  exact ⟨(), s, rfl⟩

/-- The variable of an expression that an event is for. -/
def Event.var? : Event → Option Var
  | .expr e => e.asVar
  | _ => none

/-- The variables of the expressions that calls were for. -/
def Recorded.vars (s : Recorded Unit) : List Var := (s.calls.map (·.event)).filterMap Event.var?

/-- Collecting the variables is seeing them in a record of the calls for expressions. -/
lemma collectVars_related :
    Visitors.exprsOnly.recorded.Related (fun _ _ => RunM.Seen Recorded.vars) collectVars where
  hooks := ⟨fun _ => (RunM.congruence_seen _).pure (), fun _ => (RunM.congruence_seen _).pure ()⟩
  onOp _ := (RunM.congruence_seen _).pure ()
  onExpr e := by
    show RunM.Seen Recorded.vars
      (RunM.call (CallerM.recorded (.expr e) none (fun _ => none) (pure ())))
      (RunM.call (modify (· ++ e.asVar.toList)))
    apply RunM.Seen.of_run
    intro s
    have hvars : Recorded.vars ⟨(), s.calls ++ [⟨.expr e, none, .ok none⟩]⟩ =
        s.vars ++ e.asVar.toList := by
      rw [Recorded.vars, List.map_append, List.filterMap_append, Recorded.vars]
      rcases hvar : e.asVar with _ | v <;> simp [Event.var?, hvar]
    exact Prod.ext rfl hvars.symm

/-- The variables of a plan are those of the calls that a walk of its expressions makes. -/
lemma Op.vars_eq {o : Op} {result : Except RunError Unit} {t : Session Unit Counters}
    {calls : List Call}
    (hwalk : (Visitors.exprsOnly.walk config (.op o)).run ⟨(), {}, #[]⟩ = (result, t))
    (hcalls : ((Visitors.exprsOnly.recorded.walk config (.op o)).run
      ⟨⟨(), []⟩, {}, #[]⟩).2.caller.calls = calls) :
    o.vars config = result.map fun _ => (calls.map (·.event)).filterMap Event.var? := by
  let s : Session (Recorded Unit) Counters := ⟨⟨(), []⟩, {}, #[]⟩
  have hR := RunM.congruence_seen Recorded.vars
  have hseen := Visitors.walk_related hR (hR.checkDepth config) collectVars_related (.op o) s
  have hrecorded := Visitors.exprsOnly.walk_recorded config (.op o) s
  have hresult : ((Visitors.exprsOnly.recorded.walk config (.op o)).run s).1 = result :=
    congrArg Prod.fst (hrecorded.symm.trans hwalk)
  rw [← hresult, ← hcalls]
  exact congrArg (fun run => run.1.map fun _ => run.2.caller) hseen

/-- The variables of expressions are renamed with the expressions. -/
lemma asVar_rename {h : Var → Var} {e e' : Expr}
    (he : (LeafMap.rename h).apply (.expr e) = .expr e') : e'.asVar = e.asVar.map h := by
  have hnone {e : Expr} (hleaf : e.isLeaf = false) : e.asVar = none := by
    cases e <;> first | rfl | cases hleaf
  rcases (LeafMap.rename h).apply_cases (.expr e) with ⟨-, hnode, -⟩ | ⟨hleaf, hnode⟩
  · cases he.symm.trans hnode
    cases e <;> rfl
  · have hleaf' := (LeafMap.rename h).isLeaf_apply (.expr e)
    rw [he, hleaf] at hleaf'
    rw [hnone hleaf, hnone hleaf']
    rfl

/-- Events for renamed nodes are for the renamed variables. -/
lemma filterMap_var?_rename {h : Var → Var} {as bs : List Event} {S : Node → Node → Prop}
    (halike : List.Forall₂ (Event.Alike fun m m' => (LeafMap.rename h).apply m = m' ∧ S m m')
      as bs) :
    bs.filterMap Event.var? = (as.filterMap Event.var?).map h := by
  induction halike with
  | nil => rfl
  | @cons a b as bs hab _ ih =>
    have hvar : b.var? = a.var?.map h := by
      cases hab with
      | expr he => exact asVar_rename he.1
      | before | op | after => rfl
    rw [List.filterMap_cons, List.filterMap_cons, hvar, ih]
    rcases a.var? with _ | v <;> rfl

/-- If a plan's variables are renamed, so are the variables that are collected, whatever its
projections and binding lists name. -/
lemma LeafMap.vars_rename {o : Op} (ho : (Node.op o).Distinct) (config : Config) (h : Var → Var) :
    ((rename h).runOp config o >>= Op.vars config) = (o.vars config).map (List.map h) := by
  let s : Session (Recorded Unit) Counters := ⟨⟨(), []⟩, {}, #[]⟩
  have hv : Visitors.exprsOnly.NeverFail := Visitors.neverFail_exprsOnly
  rcases hwalk : (Visitors.exprsOnly.walk config (.op o)).run s.forget with ⟨e | _, t⟩
  · obtain ⟨o', ho', -⟩ := (rename h).apply_op o
    have hvars : o.vars config = .error e := Op.vars_eq hwalk rfl
    rw [runOp_eq hv ho ho' s.forget, ← Visitors.walk_op, hwalk, hvars]
    rfl
  · obtain ⟨o', t', calls, calls', hrun, hwalk', -, hcalls, hcalls', halike⟩ :=
      walk_runOp (f := rename h) ho hv rfl s rfl hwalk
    have hvars : o.vars config = .ok ((calls.map (·.event)).filterMap Event.var?) :=
      Op.vars_eq hwalk hcalls
    have hvars' : o'.vars config = .ok ((calls'.map (·.event)).filterMap Event.var?) :=
      Op.vars_eq hwalk' hcalls'
    calc
      ((rename h).runOp config o >>= Op.vars config) = o'.vars config := by
        rw [hrun]
        rfl
      _ = .ok (((calls.map (·.event)).filterMap Event.var?).map h) := by
        rw [hvars', filterMap_var?_rename halike]
      _ = (o.vars config).map (List.map h) := by
        rw [hvars]
        rfl

namespace LeafMap

/-- Rewriting leaves and walking commute.

If a walk of an operator succeeds, rewriting its leaves succeeds, and so does a walk of the result
by visitors that hear of the same events and never fail. They are called for as many events as the
visitors of the old operator, of the same kinds and in the same order, each time for what rewriting
makes of the node that the others were called for. The counters come out the same.

If the variables of an operator are renamed, so are those that are collected from it, in the same
order and with repetitions. The variables that projections and binding lists name are not among
them. -/
theorem walk_commutes (config : Config) {o : Op} (ho : (Node.op o).Distinct) :
    (∀ (f : LeafMap) (v : Visitors σ) (v' : Visitors ρ), v'.NeverFail → v'.hears = v.hears →
      ∀ (s : Session (Recorded σ) Counters) (s' : Session (Recorded ρ) Counters)
        (t : Session σ Counters), s'.own = s.own →
        (v.walk config (.op o)).run s.forget = (.ok (), t) →
        ∃ o' t' calls calls',
          f.runOp config o = .ok o' ∧
          (v'.walk config (.op o')).run s'.forget = (.ok (), t') ∧
          t'.own = t.own ∧
          ((v.recorded.walk config (.op o)).run s).2.caller.calls = s.caller.calls ++ calls ∧
          ((v'.recorded.walk config (.op o')).run s').2.caller.calls =
            s'.caller.calls ++ calls' ∧
          List.Forall₂ (Event.Alike fun m m' => f.apply m = m' ∧ f.run config m = .ok m')
            (calls.map (·.event)) (calls'.map (·.event))) ∧
    ∀ h : Var → Var,
      ((rename h).runOp config o >>= Op.vars config) = (o.vars config).map (List.map h) := by
  constructor
  · intro f v v' hv' hhears s s' t hown hwalk
    exact walk_runOp ho hv' hhears s' hown hwalk
  · exact vars_rename ho config

/-- A projection of a count names a variable three times, and refers to it once. -/
theorem projected_countedBy_walk_commutes :
    let o := Op.project [⟨"k"⟩] (.countedBy ⟨"k"⟩ "T")
    let f := rename fun v => ⟨v.name ++ "2"⟩
    (Node.op o).Distinct ∧ Visitors.counting.NeverFail ∧
      ((Visitors.counting.walk {} (.op o)).run ⟨0, {}, #[]⟩).1 = .ok () ∧
      (∃ o', f.runOp {} o = .ok o' ∧
        ((Visitors.counting.walk {} (.op o')).run ⟨0, {}, #[]⟩).1 = .ok ()) ∧
      (f.runOp {} o >>= Op.vars {}) = .ok [⟨"k2"⟩] := by
  intro o f
  have ho : (Node.op o).Distinct := by
    apply Node.Distinct.of_parts (List.forall_mem_nil _)
    intro p hp
    rw [List.mem_singleton.1 hp]
    exact Op.distinct_countedBy _ _
  have hv := Visitors.neverFail_counting
  have hwalk : ((Visitors.counting.walk {} (.op o)).run ⟨0, {}, #[]⟩).1 = .ok () := by
    rw [Visitors.walk_op, Visitors.walkTree, drain_enter, ← Visitors.visit_eq_forM]
    rfl
  have hvars : o.vars {} = .ok [⟨"k"⟩] := by
    rw [Op.vars, Visitors.walk_op, Visitors.walkTree, drain_enter, ← Visitors.visit_eq_forM]
    rfl
  obtain ⟨hwalks, hrename⟩ := walk_commutes (σ := Nat) (ρ := Nat) {} ho
  let s : Session (Recorded Nat) Counters := ⟨⟨0, []⟩, {}, #[]⟩
  obtain ⟨o', t', -, -, hrun, hwalk', -⟩ :=
    hwalks f Visitors.counting Visitors.counting hv rfl s s _ rfl (Prod.ext hwalk rfl)
  refine ⟨ho, hv, hwalk, ⟨o', hrun, congrArg Prod.fst hwalk'⟩, ?_⟩
  rw [hrename, hvars]
  rfl

end LeafMap

end QueryPlan
