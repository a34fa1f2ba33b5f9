import QueryPlan.Proofs.Begun
import QueryPlan.Proofs.Visits

/-!
# Walks one after the other

A walker can be used again, whether its last walk failed or not (`Visitors.walkAll`). What each turn
leads to, the whole history leads to (`Visitors.walkAll_accumulates`): thus the visitors are called
on the nodes that are left, over all walks (`Visitors.perform_visited`).

The counters are all that one walk leaves behind for the next, and no walk looks at them
(`Visitors.walk_blind`).
-/

namespace QueryPlan

variable {σ τ α β : Type} {config : Config}

namespace RunM

/-- A run whose error becomes a part of its result, so that more can come after it. -/
def attempt (x : RunM σ τ α) : RunM σ τ (Except RunError α) :=
  ExceptT.mk fun s =>
    let (result, t) := x.run s
    (.ok result, t)

/-- An attempt always succeeds, with the result or the error of the run. -/
lemma run_attempt (x : RunM σ τ α) (s : Session σ τ) :
    x.attempt.run s = (.ok (x.run s).1, (x.run s).2) :=
  rfl

/-- Runs that go on after errors come to their end. -/
lemma mapM_attempt (f : α → RunM σ τ β) (as : List α) (s : Session σ τ) :
    ∃ results t, (as.mapM fun a => (f a).attempt).run s = (.ok results, t) := by
  induction as generalizing s with
  | nil => exact ⟨[], s, rfl⟩
  | cons a as ih =>
    obtain ⟨results, t, hrest⟩ := ih ((f a).run s).2
    refine ⟨((f a).run s).1 :: results, t, ?_⟩
    rw [List.mapM_cons, bind_of_ok (run_attempt (f a) s), bind_of_ok hrest]
    rfl

end RunM

namespace Visitors

/-- Walks of roots by one walker, the next one whether the one before fails or not. -/
def walkAll (config : Config) (v : Visitors σ) (roots : List Root) :
    RunM σ Counters (List (Except RunError Unit)) :=
  roots.mapM fun root => (v.walk config root).attempt

/-- The turns, over all these roots, that the walks come to. -/
def turnsBegunInAll (config : Config) (v : Visitors σ) (roots : List Root) :
    Session σ Counters → List (Place × Turn) :=
  RunM.along (fun root => (v.walk config root).attempt) (v.turnsBegun config) roots

end Visitors

/-- What the turns of walks lead to, any number of walks lead to. -/
lemma Visitors.walkAll_accumulates {v : Visitors σ}
    {R : List (Place × Turn) → Session σ Counters → Session σ Counters → Prop}
    (hR : RunM.Accumulates R)
    (h : ∀ x s, R [x] s ((v.perform config (Turn.step 1 x)).run s).2) (roots : List Root)
    (s : Session σ Counters) :
    R (v.turnsBegunInAll config roots s) s ((v.walkAll config roots).run s).2 := by
  have hwalk (root : Root) (s : Session σ Counters) :
      R (v.turnsBegun config root s) s ((v.walk config root).attempt.run s).2 :=
    walk_accumulates hR h root s
  exact hR.mapM hwalk roots s

/-- Without the record, recorded walks of several roots are the walks themselves. -/
lemma Visitors.walkAll_recorded (config : Config) (v : Visitors σ) (roots : List Root) :
    RunM.Records (v.recorded.walkAll config roots) (v.walkAll config roots) := by
  have hR := RunM.congruence_records (σ := σ)
  apply hR.mapM
  intro root s
  rw [RunM.run_attempt, RunM.run_attempt, v.walk_recorded config root s]

/-! ### What turns call the visitors for -/

/-- The node that is left. -/
def Turn.left : Turn → List Node
  | enter _ => []
  | leave m => [m]

/-- From one session to the other the visitors have been called on the nodes that are left. -/
def Visited (v : Visitors σ) (turns : List (Place × Turn)) (s t : Session (Recorded σ) τ) : Prop :=
  ∃ calls, t.caller.calls = s.caller.calls ++ calls ∧
    calls.filterMap (·.event.visited?) = (turns.flatMap fun x => x.2.left).filter v.visits

/-- The visits of turns add up along a run. -/
lemma accumulates_visited (v : Visitors σ) :
    RunM.Accumulates (Visited v : _ → Session (Recorded σ) τ → _ → Prop) where
  nil s := ⟨[], (List.append_nil _).symm, rfl⟩
  append {xs ys s t u} h h' := by
    obtain ⟨calls, hcalls, hvisits⟩ := h
    obtain ⟨more, hmore, hvisits'⟩ := h'
    refine ⟨calls ++ more, ?_, ?_⟩
    · rw [hmore, hcalls, List.append_assoc]
    · rw [List.filterMap_append, hvisits, hvisits', List.flatMap_append, List.filter_append]

/-- Of the events after the parts of a node the visit comes first. -/
lemma Node.filterMap_visited?_of_prefix {m : Node} {hears : Event → Bool} {events : List Event}
    (h : events <+: m.closing.filter hears) (hne : events ≠ []) :
    events.filterMap Event.visited? = (m.closing.filter hears).filterMap Event.visited? := by
  obtain ⟨e, rest, rfl⟩ := List.exists_cons_of_ne_nil hne
  obtain ⟨more, hmore⟩ := h
  have htail : m.closing.tail.filterMap Event.visited? = [] := by
    cases m with
    | op o => by_cases ho : o.isComposite = true <;> simp [closing, ho, Event.visited?]
    | expr e => rfl
  have hsub : (rest ++ more).Sublist m.closing.tail := by
    have hfilter := (List.filter_sublist (l := m.closing) (p := hears)).tail
    rwa [← hmore] at hfilter
  have hnone : (rest ++ more).filterMap Event.visited? = [] :=
    List.sublist_nil.1 (htail ▸ hsub.filterMap Event.visited?)
  rw [List.filterMap_append, List.append_eq_nil_iff] at hnone
  rw [← hmore, ← List.singleton_append, List.append_assoc, List.filterMap_append,
    List.filterMap_append, List.filterMap_append, hnone.1, hnone.2]
  rfl

/-- Each turn calls the visitor on the node that it leaves, also when it fails. -/
lemma Visitors.perform_visited (config : Config) (v : Visitors σ) (x : Place × Turn)
    (s : Session (Recorded σ) Counters) :
    Visited v [x] s ((v.recorded.perform config (Turn.step 1 x)).run s).2 := by
  obtain ⟨calls, hcalls, hallows⟩ := v.perform_follows config (Turn.step 1 x) s
  refine ⟨calls, hcalls, ?_⟩
  have hmap : calls.filterMap (·.event.visited?) =
      (calls.map (·.event)).filterMap Event.visited? := by
    rw [List.filterMap_map]
    rfl
  rw [hmap, List.flatMap_singleton]
  obtain ⟨π, m | m⟩ := x
  · have hprefix := hallows.events_prefix.trans (Step.course_of config v.hears _).initial
    have hsub := hprefix.sublist.filterMap Event.visited?
    rw [v.filterMap_visited?_filter] at hsub
    apply List.sublist_nil.1
    rwa [Turn.step, Step.events, m.filterMap_visited?_opening] at hsub
  · have hwhole : (m.closing.filter v.hears).filterMap Event.visited? = [m].filter v.visits := by
      rw [v.filterMap_visited?_filter, m.filterMap_visited?_closing]
    rcases hallows.events_cases with hne | hevents
    · have hne' : calls.map (·.event) ≠ [] := fun h => hne (List.map_eq_nil_iff.1 h)
      rw [Node.filterMap_visited?_of_prefix hallows.events_prefix hne']
      exact hwhole
    · rw [hevents]
      exact hwhole

/-! ### Walks that do not look at the counters -/

/-- Whatever its own state is, a run gives the same result and leaves the same but for that. -/
def RunM.Blind (x : RunM σ τ α) : Prop :=
  ∀ s own, ∃ own', x.run { s with own } = ((x.run s).1, { (x.run s).2 with own := own' })

namespace RunM.Blind

/-- What does not touch its own state does not look at it. -/
lemma of_passes {x : RunM σ τ α} (h : Passes x x) : x.Blind := by
  intro s own
  have hrun : x.run s =
      ((x.run { s with own }).1, { (x.run { s with own }).2 with own := s.own }) :=
    congrArg (fun y : RunM σ τ α => y.run s) (h.within_eq own).symm
  refine ⟨(x.run { s with own }).2.own, ?_⟩
  rw [hrun]
  rfl

/-- A change of the own state does not show in anything else. -/
lemma modifyOwn (f : τ → τ) : (modifyOwn f : RunM σ τ Unit).Blind :=
  fun _ own => ⟨f own, rfl⟩

/-- Two computations after each other do not look at the own state if neither does. -/
lemma bind {x : RunM σ τ α} {f : α → RunM σ τ β} (h : x.Blind) (hf : ∀ a, (f a).Blind) :
    (x >>= f).Blind := by
  intro s own
  obtain ⟨own', hx'⟩ := h s own
  rcases hx : x.run s with ⟨e | a, t⟩
  · rw [hx] at hx'
    exact ⟨own', by rw [bind_of_error hx, bind_of_error hx']⟩
  · rw [hx] at hx'
    obtain ⟨own'', hf'⟩ := hf a t own'
    exact ⟨own'', by rw [bind_of_ok hx, bind_of_ok hx', hf']⟩

/-- A loop does not look at the own state if the runs of its members do not. -/
lemma forM {f : α → RunM σ τ Unit} (h : ∀ a, (f a).Blind) (as : List α) :
    (forM as f : RunM σ τ Unit).Blind := by
  induction as with
  | nil => exact of_passes (.pure ())
  | cons a as ih =>
    rw [List.forM_cons]
    exact (h a).bind fun _ => ih

end RunM.Blind

namespace Visitors

variable {v : Visitors σ}

/-- No step of a walk looks at the counters. -/
lemma perform_blind (config : Config) (v : Visitors σ) (s : Step) : (v.perform config s).Blind := by
  cases s with
  | enter n depth =>
    apply RunM.Blind.bind (.of_passes (.checkDepth config depth))
    intro _
    exact RunM.Blind.bind (.modifyOwn _) fun _ => .of_passes (.reach _ _ _ _)
  | leave n =>
    cases n with
    | op o =>
      apply RunM.Blind.bind (.modifyOwn _)
      intro _
      exact .of_passes ((RunM.Passes.notify _ _).bind fun _ => .close _ _)
    | expr e => exact RunM.Blind.bind (.modifyOwn _) fun _ => .of_passes (.notify _ _)

/-- No walk looks at the counters. -/
lemma walk_blind (config : Config) (v : Visitors σ) (root : Root) : (v.walk config root).Blind := by
  apply RunM.Blind.forM
  intro n
  rw [walkTree, drain_eq_forM]
  exact .forM (v.perform_blind config) _

end Visitors

end QueryPlan
