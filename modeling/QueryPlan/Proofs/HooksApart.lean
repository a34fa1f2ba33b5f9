import QueryPlan.Proofs.SameSchedule
import QueryPlan.Proofs.SideBySide
import QueryPlan.Proofs.Visits

/-!
# Hooks that stand apart

Hooks see where a run is and are not meant to have a say in it. `Hooks.Apart` says what that
takes of them: they never fail, and they leave the state of the other callbacks as it is, which
they may read. `hooks_change_nothing` compares a run with such hooks to the run without hooks.
Everything but the calls of the hooks and their own state is the same.
-/

namespace QueryPlan

variable {σ ρ η τ α : Type}

/-- A callback on the first of two states. -/
def CallerM.onFirst (c : CallerM σ α) : CallerM (σ × η) α :=
  ExceptT.mk fun s =>
    let (result, first) := c.run s.1
    (result, (first, s.2))

/-- Hooks over two states that never fail and leave the first one alone. -/
structure Hooks.Apart (h : Hooks (σ × η)) : Prop where
  before : ∀ c ∈ h.before, ∀ o s u, ∃ u', (c o).run (s, u) = (.ok (), (s, u'))
  after : ∀ c ∈ h.after, ∀ o s u, ∃ u', (c o).run (s, u) = (.ok (), (s, u'))

/-- Visitors with hooks that have a state of their own. -/
def Visitors.withHooks (v : Visitors σ) (h : Hooks (σ × η)) : Visitors (σ × η) where
  toHooks := h
  onOp := v.onOp.map fun c o => (c o).onFirst
  onExpr := v.onExpr.map fun c e => (c e).onFirst

/-- The visitors alone, without their hooks. -/
def Visitors.withoutHooks (v : Visitors σ) : Visitors σ := { v with toHooks := {} }

/-- Replacing callbacks with hooks that have a state of their own. -/
def Replacers.withHooks (r : Replacers σ) (h : Hooks (σ × η)) : Replacers (σ × η) where
  toHooks := h
  onOp := r.onOp.map fun c old rebuilt => (c old rebuilt).onFirst
  onExpr := r.onExpr.map fun c old rebuilt => (c old rebuilt).onFirst

/-- The replacing callbacks alone, without their hooks. -/
def Replacers.withoutHooks (r : Replacers σ) : Replacers σ := { r with toHooks := {} }

/-- The call was for a node and not for a scope. -/
def Call.isVisit (c : Call) : Bool := c.event.visited?.isSome

/-- How a run with hooks ends that stand apart, compared to the run without hooks. -/
structure SameButForHooks (hooked : Except RunError α × Session (Recorded (σ × η)) τ)
    (plain : Except RunError α × Session (Recorded σ) τ) : Prop where
  /-- Both succeed with the same result or fail with the same error. -/
  result : hooked.1 = plain.1
  /-- The other callbacks were called with the same arguments and gave the same answers. -/
  calls : hooked.2.caller.calls.filter Call.isVisit = plain.2.caller.calls
  caller : hooked.2.caller.caller.1 = plain.2.caller.caller
  /-- What the run keeps for itself is the same, for a walk its counters. -/
  own : hooked.2.own = plain.2.own
  log : hooked.2.log = plain.2.log

/-- What is left of a state and of the calls without those of hooks. -/
def Recorded.withoutHooks (s : Recorded (σ × η)) : Recorded σ :=
  ⟨s.caller.1, s.calls.filter Call.isVisit⟩

namespace RunM.Seen

/-- Runs that are seen alike without hooks end alike but for the hooks. -/
lemma sameButForHooks {x : RunM (Recorded (σ × η)) τ α} {y : RunM (Recorded σ) τ α}
    (h : Seen Recorded.withoutHooks x y) (s : Session (Recorded (σ × η)) τ) :
    SameButForHooks (x.run s) (y.run (s.mapCaller Recorded.withoutHooks)) := by
  rw [h s]
  exact ⟨rfl, rfl, rfl, rfl, rfl⟩

/-- A callback on the first state is seen as it is. -/
lemma call_onFirst {event : Event} (hevent : event.visited?.isSome = true) (rebuilt : Option Node)
    (node : α → Option Node) (c : CallerM σ α) :
    Seen (Recorded.withoutHooks (η := η))
      (RunM.call (CallerM.recorded event rebuilt node c.onFirst) : RunM _ τ α)
      (RunM.call (CallerM.recorded event rebuilt node c)) := by
  apply of_run
  intro s
  have hcall (answer : Except RunError (Option Node)) :
      Call.isVisit ⟨event, rebuilt, answer⟩ = true := hevent
  rw [CallerM.run_recorded, CallerM.run_recorded, Recorded.withoutHooks, Recorded.withoutHooks,
    List.filter_append, List.filter_cons_of_pos (hcall _)]
  rfl

/-- A hook that stands apart is not seen. -/
lemma notify_hook {c : Option (Op → CallerM (σ × η) Unit)}
    (h : ∀ f ∈ c, ∀ o s u, ∃ u', (f o).run (s, u) = (.ok (), (s, u'))) {event : Op → Event}
    (hevent : ∀ o, (event o).visited? = none) (o : Op) :
    Seen Recorded.withoutHooks
      (notify (c.map fun f o => CallerM.recorded (event o) none (fun _ => none) (f o)) o :
        RunM _ τ Unit)
      (Pure.pure () : RunM (Recorded σ) τ Unit) := by
  cases c with
  | none => exact (congruence_seen _).pure ()
  | some f =>
    apply of_unseen
    intro s
    obtain ⟨u, hrun⟩ := h f rfl o s.caller.1 s.caller.2
    refine ⟨⟨(s.caller.1, u), s.calls ++ [⟨event o, none, .ok none⟩]⟩, ?_, ?_⟩
    · rw [CallerM.run_recorded]
      change (f o).run s.caller = _ at hrun
      rw [hrun]
      rfl
    · have hcall : ¬ Call.isVisit ⟨event o, none, .ok none⟩ = true := by
        rw [Call.isVisit, hevent]
        exact Bool.false_ne_true
      rw [Recorded.withoutHooks, List.filter_append, List.filter_cons_of_neg hcall,
        List.filter_nil, List.append_nil]
      rfl

end RunM.Seen

/-- Both kinds of hooks are seen as missing ones. -/
lemma Hooks.Apart.related {h : Hooks (σ × η)} (hh : h.Apart) :
    h.recorded.Related (fun _ _ => RunM.Seen Recorded.withoutHooks) ({} : Hooks σ).recorded where
  before o := RunM.Seen.notify_hook hh.before (fun _ => rfl) o
  after o := RunM.Seen.notify_hook hh.after (fun _ => rfl) o

/-- Visitors with hooks that stand apart are seen as visitors without hooks. -/
lemma Visitors.withHooks_related (v : Visitors σ) {h : Hooks (σ × η)} (hh : h.Apart) :
    (v.withHooks h).recorded.Related (fun _ _ => RunM.Seen Recorded.withoutHooks)
      v.withoutHooks.recorded where
  hooks := hh.related
  onOp o := by
    obtain ⟨hooks, _ | c, onExpr⟩ := v
    · exact (RunM.congruence_seen _).pure ()
    · exact RunM.Seen.call_onFirst rfl _ _ (c o)
  onExpr e := by
    obtain ⟨hooks, onOp, _ | c⟩ := v
    · exact (RunM.congruence_seen _).pure ()
    · exact RunM.Seen.call_onFirst rfl _ _ (c e)

/-- Replacing callbacks with hooks that stand apart are seen as those without hooks. -/
lemma Replacers.withHooks_related (r : Replacers σ) {h : Hooks (σ × η)} (hh : h.Apart) :
    (r.withHooks h).recorded.Related (fun _ _ => RunM.Seen Recorded.withoutHooks)
      r.withoutHooks.recorded where
  hooks := hh.related
  onOp old rebuilt := by
    obtain ⟨hooks, _ | c, onExpr⟩ := r
    · exact (RunM.congruence_seen _).pure rebuilt
    · exact RunM.Seen.call_onFirst rfl _ _ (c old rebuilt)
  onExpr old rebuilt := by
    obtain ⟨hooks, onOp, _ | c⟩ := r
    · exact (RunM.congruence_seen _).pure rebuilt
    · exact RunM.Seen.call_onFirst rfl _ _ (c old rebuilt)

/-- Hooks that never fail and leave the state of the other callbacks alone make no difference to
a run, whatever root it is over and whatever the other callbacks do: neither to their calls, nor
to the result, nor to the counters of a walk. -/
theorem hooks_change_nothing (config : Config) (root : Root) (v : Visitors σ) (r : Replacers ρ)
    {h : Hooks (σ × η)} (hh : h.Apart) {k : Hooks (ρ × η)} (hk : k.Apart) (s : σ) (t : ρ) (u : η)
    (counters : Counters) (own : τ) (log : Array LogRecord) :
    SameButForHooks
      (((v.withHooks h).recorded.walk config root).run ⟨⟨(s, u), []⟩, counters, log⟩)
      ((v.withoutHooks.recorded.walk config root).run ⟨⟨s, []⟩, counters, log⟩) ∧
    SameButForHooks
      (((r.withHooks k).recorded.replace config root).run ⟨⟨(t, u), []⟩, own, log⟩)
      ((r.withoutHooks.recorded.replace config root).run ⟨⟨t, []⟩, own, log⟩) := by
  have hR {σ ρ : Type} (view : σ → ρ) := RunM.congruence_seen view
  constructor
  · have hwalk := Visitors.walk_related (hR _) ((hR _).checkDepth config)
      (v.withHooks_related hh) root
    exact hwalk.sameButForHooks ⟨⟨(s, u), []⟩, counters, log⟩
  · have hreplace := Replacers.replace_related (τ := τ) (hR _) ((hR _).checkDepth config)
      (r.withHooks_related hk) root
    exact hreplace.sameButForHooks ⟨⟨(t, u), []⟩, own, log⟩

/-- Hooks that count the scopes. -/
def Hooks.countingScopes : Hooks (σ × Nat) where
  before := some fun _ => modify fun s => (s.1, s.2 + 1)
  after := some fun _ => modify fun s => (s.1, s.2 + 1)

/-- Hooks that only count the scopes stand apart. -/
lemma Hooks.apart_countingScopes : (countingScopes : Hooks (σ × Nat)).Apart := by
  constructor
  · rintro c ⟨⟩ o s u
    exact ⟨u + 1, rfl⟩
  · rintro c ⟨⟩ o s u
    exact ⟨u + 1, rfl⟩

/-- Counting the scopes of a filter with an existence test changes nothing in what is counted of its
nodes. -/
theorem countingScopes_change_nothing :
    let root := Root.op (.filter [.existence false (.distinct .empty)] .empty)
    (Hooks.countingScopes : Hooks (Nat × Nat)).Apart ∧
      SameButForHooks
        (((Visitors.counting.withHooks Hooks.countingScopes).recorded.walk {} root).run
          ⟨⟨(0, 0), []⟩, {}, #[]⟩)
        ((Visitors.counting.withoutHooks.recorded.walk {} root).run ⟨⟨0, []⟩, {}, #[]⟩) ∧
      SameButForHooks
        (((Replacers.counting.withHooks Hooks.countingScopes).recorded.replace {} root).run
          ⟨⟨(0, 0), []⟩, (), #[]⟩)
        ((Replacers.counting.withoutHooks.recorded.replace {} root).run ⟨⟨0, []⟩, (), #[]⟩) := by
  intro root
  have hapart : (Hooks.countingScopes : Hooks (Nat × Nat)).Apart := Hooks.apart_countingScopes
  exact ⟨hapart, hooks_change_nothing {} root Visitors.counting Replacers.counting hapart hapart
    0 0 0 {} () #[]⟩

end QueryPlan
