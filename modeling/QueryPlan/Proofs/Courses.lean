import QueryPlan.Proofs.Calls

/-!
# Courses

The course of a run is what it does as long as no callback fails: it fires some events in order and
then ends or stops by itself with an error. `Course.Allows` says which calls and which result a run
with a course can have, failing callbacks included: up to a failing call everything goes by the
course, and nothing comes after it.

`RunM.Follows` gives a run a course, `RunM.Follows.bind` puts courses together. Courses do not
depend on what callbacks do, so a course that is known for each part of a run is known for the
whole.
-/

namespace QueryPlan

variable {σ τ υ α β : Type}

/-- What a run does as long as no callback fails. -/
structure Course where
  /-- The events that it fires. -/
  events : List Event
  /-- The error with which it stops after them. -/
  stop : Option RunError

namespace Course

/-- Nothing happens. -/
def done : Course := ⟨[], none⟩

/-- Some events are fired. -/
def firing (events : List Event) : Course := ⟨events, none⟩

/-- No event is fired; if there is an error, the run stops. -/
def stopping (stop : Option RunError) : Course := ⟨[], stop⟩

/-- One course after the other, unless the first one stops. -/
def andThen (c d : Course) : Course :=
  match c.stop with
  | some _ => c
  | none => ⟨c.events ++ d.events, d.stop⟩

variable {c d : Course}

/-- Nothing comes after a course that stops. -/
lemma andThen_of_stop {e : RunError} (h : c.stop = some e) : c.andThen d = c := by
  rw [andThen, h]

/-- After a course that does not stop come the events of the next one, and its stop. -/
lemma andThen_of_none (h : c.stop = none) : c.andThen d = ⟨c.events ++ d.events, d.stop⟩ := by
  rw [andThen, h]

/-- Doing nothing after a course adds nothing to it. -/
lemma andThen_done (c : Course) : c.andThen done = c := by
  rcases hstop : c.stop with _ | e
  · rw [andThen_of_none hstop]
    change Course.mk (c.events ++ []) none = c
    rw [List.append_nil, ← hstop]
  · exact andThen_of_stop hstop

/-- Firing some events and then others is firing all of them. -/
lemma firing_andThen_firing (first last : List Event) :
    (firing first).andThen (firing last) = firing (first ++ last) :=
  rfl

/-- Two courses stop where the first one does, or else where the second one does. -/
lemma stop_andThen (c d : Course) : (c.andThen d).stop = c.stop.or d.stop := by
  rcases hstop : c.stop with _ | e
  · rw [andThen_of_none hstop, Option.none_or]
  · rw [andThen_of_stop hstop, hstop, Option.some_or]

/-- The error at which two courses stop is that of one of them. -/
lemma stop_of_andThen {e : RunError} (h : (c.andThen d).stop = some e) :
    c.stop = some e ∨ d.stop = some e := by
  rw [stop_andThen, Option.or_eq_some_iff] at h
  exact h.imp_right And.right

/-- The events of a course are the first ones of a list, and all of them unless it stops. -/
structure Of (c : Course) (events : List Event) : Prop where
  initial : c.events <+: events
  whole : c.stop = none → c.events = events

namespace Of

variable {first last : List Event}

/-- Doing nothing fires all of no events. -/
lemma done : done.Of [] :=
  ⟨List.prefix_rfl, fun _ => rfl⟩

/-- Firing events fires all of them. -/
lemma firing (events : List Event) : (firing events).Of events :=
  ⟨List.prefix_rfl, fun _ => rfl⟩

/-- Where a course only stops there are no events to fire. -/
lemma stopping (stop : Option RunError) : (stopping stop).Of [] :=
  ⟨List.prefix_rfl, fun _ => rfl⟩

/-- Two courses fire the first events of what they would fire, one list after the other. -/
lemma andThen (hc : c.Of first) (hd : d.Of last) : (c.andThen d).Of (first ++ last) := by
  rcases hstop : c.stop with _ | e
  · rw [andThen_of_none hstop, hc.whole hstop]
    refine ⟨(List.prefix_append_right_inj first).2 hd.initial, fun h => ?_⟩
    rw [hd.whole h]
  · rw [andThen_of_stop hstop]
    refine ⟨hc.initial.trans (List.prefix_append first last), fun h => ?_⟩
    rw [hstop] at h
    cases h

end Of

/-- The calls and the result of a run with a course. -/
inductive Allows (c : Course) : Except RunError α → List Call → Prop where
  | ok {a calls} :
    c.stop = none →
    calls.map (·.event) = c.events →
    (∀ call ∈ calls, call.Succeeded) →
    Allows c (.ok a) calls
  | stopped {e calls} :
    c.stop = some e →
    calls.map (·.event) = c.events →
    (∀ call ∈ calls, call.Succeeded) →
    Allows c (.error e) calls
  | failed {e first last} :
    (first ++ [last]).map (·.event) <+: c.events →
    (∀ call ∈ first, call.Succeeded) →
    last.answer = .error e →
    Allows c (.error e) (first ++ [last])

namespace Allows

variable {calls more : List Call} {e : RunError}

/-- A run that ends in a first course is one of the two courses together. -/
lemma andThen_error (h : c.Allows (.error e : Except RunError α) calls) (d : Course) :
    (c.andThen d).Allows (.error e : Except RunError β) calls := by
  cases h with
  | stopped hstop hevents hsucceeded =>
    rw [andThen_of_stop hstop]
    exact .stopped hstop hevents hsucceeded
  | failed hevents hsucceeded hlast =>
    -- the events of the second course come after those that were fired
    rcases hstop : c.stop with _ | e'
    · rw [andThen_of_none hstop]
      exact .failed (hevents.trans (List.prefix_append _ _)) hsucceeded hlast
    · rw [andThen_of_stop hstop]
      exact .failed hevents hsucceeded hlast

/-- A run that succeeds along a first course goes on along the second one. -/
lemma andThen_ok {a : α} {result : Except RunError β} (h : c.Allows (.ok a) calls)
    (hd : d.Allows result more) : (c.andThen d).Allows result (calls ++ more) := by
  cases h with
  | ok hstop hevents hsucceeded =>
    rw [andThen_of_none hstop]
    cases hd with
    | ok hstop' hevents' hsucceeded' =>
      refine .ok hstop' ?_ (List.forall_mem_append.2 ⟨hsucceeded, hsucceeded'⟩)
      rw [List.map_append, hevents, hevents']
    | stopped hstop' hevents' hsucceeded' =>
      refine .stopped hstop' ?_ (List.forall_mem_append.2 ⟨hsucceeded, hsucceeded'⟩)
      rw [List.map_append, hevents, hevents']
    | failed hevents' hsucceeded' hlast =>
      rw [← List.append_assoc]
      refine .failed ?_ (List.forall_mem_append.2 ⟨hsucceeded, hsucceeded'⟩) hlast
      rw [List.append_assoc, List.map_append, hevents]
      exact (List.prefix_append_right_inj c.events).2 hevents'

/-- The calls are for the first of the events. -/
lemma events_prefix {result : Except RunError α} (h : c.Allows result calls) :
    calls.map (·.event) <+: c.events := by
  cases h with
  | ok _ hevents | stopped _ hevents => exact hevents ▸ List.prefix_rfl
  | failed hevents => exact hevents

/-- Without a call they are for all of them. -/
lemma events_cases {result : Except RunError α} (h : c.Allows result calls) :
    calls ≠ [] ∨ calls.map (·.event) = c.events := by
  cases h with
  | ok _ hevents | stopped _ hevents => exact .inr hevents
  | failed => exact .inl (List.concat_ne_nil _ _)

end Allows

end Course

namespace RunM

/-- The run from a session has a course. -/
def Follows (x : RunM (Recorded σ) τ α) (s : Session (Recorded σ) τ) (c : Course) : Prop :=
  ∃ calls, (x.run s).2.caller.calls = s.caller.calls ++ calls ∧ c.Allows (x.run s).1 calls

namespace Follows

variable {x : RunM (Recorded σ) τ α} {s : Session (Recorded σ) τ} {c d : Course}

/-- A run that succeeds without a call. -/
lemma of_ok {a t} (h : x.run s = (.ok a, t)) (hcalls : t.caller = s.caller) :
    x.Follows s .done := by
  refine ⟨[], ?_, ?_⟩
  · rw [h, hcalls, List.append_nil]
  · rw [h]
    exact .ok rfl rfl (List.forall_mem_nil _)

/-- A run that stops without a call. -/
lemma of_error {e t} (h : x.run s = (.error e, t)) (hcalls : t.caller = s.caller) :
    x.Follows s (.stopping (some e)) := by
  refine ⟨[], ?_, ?_⟩
  · rw [h, hcalls, List.append_nil]
  · rw [h]
    exact .stopped rfl rfl (List.forall_mem_nil _)

/-- A value that is only returned follows the course that does nothing. -/
lemma pure (a : α) : (pure a : RunM (Recorded σ) τ α).Follows s .done :=
  of_ok rfl rfl

/-- A log record belongs to no course. -/
lemma emit (r : LogRecord) : (emit r : RunM (Recorded σ) τ Unit).Follows s .done :=
  of_ok rfl rfl

/-- A change of the own state belongs to no course. -/
lemma modifyOwn (f : τ → τ) : (modifyOwn f : RunM (Recorded σ) τ Unit).Follows s .done :=
  of_ok rfl rfl

/-- A call is one event; it may fail. -/
lemma call (event : Event) (rebuilt : Option Node) (node : α → Option Node) (f : CallerM σ α) :
    (call (CallerM.recorded event rebuilt node f) : RunM (Recorded σ) τ α).Follows s
      (.firing [event]) := by
  refine ⟨[⟨event, rebuilt, (f.run s.caller.caller).1.map node⟩], rfl, ?_⟩
  change Course.Allows _ (f.run s.caller.caller).1 _
  rcases (f.run s.caller.caller).1 with e | a
  · exact @Course.Allows.failed _ _ e [] _ List.prefix_rfl (List.forall_mem_nil _) rfl
  · refine .ok rfl rfl ?_
    intro c hc e he
    rw [List.mem_singleton.1 hc] at he
    cases he

/-- The course of a run is put together from those of its parts. -/
lemma bind {f : α → RunM (Recorded σ) τ β} (h : x.Follows s c)
    (hf : ∀ a t, x.run s = (.ok a, t) → (f a).Follows t d) :
    (x >>= f).Follows s (c.andThen d) := by
  obtain ⟨calls, hcalls, hallows⟩ := h
  rcases hx : x.run s with ⟨e | a, t⟩
  · rw [hx] at hcalls hallows
    refine ⟨calls, ?_, ?_⟩
    · rw [bind_of_error hx, hcalls]
    · rw [bind_of_error hx]
      exact hallows.andThen_error d
  · rw [hx] at hcalls hallows
    obtain ⟨more, hmore, hallows'⟩ := hf a t hx
    refine ⟨calls ++ more, ?_, ?_⟩
    · rw [bind_of_ok hx, hmore, hcalls, List.append_assoc]
    · rw [bind_of_ok hx]
      exact hallows.andThen_ok hallows'

/-- A run that ends in its first part has the course of that part, whatever would come next. -/
lemma bind_of_error {f : α → RunM (Recorded σ) τ β} {e t} (h : x.Follows s c)
    (hrun : x.run s = (.error e, t)) (d : Course) : (x >>= f).Follows s (c.andThen d) := by
  refine h.bind fun a u hok => ?_
  cases hrun.symm.trans hok

/-- What happens without an event is not seen in the course. -/
lemma bind_done {f : α → RunM (Recorded σ) τ β} (h : x.Follows s .done)
    (hf : ∀ a t, x.run s = (.ok a, t) → (f a).Follows t d) : (x >>= f).Follows s d :=
  h.bind hf

/-- A run in a state of its own follows the course that it follows inside. -/
lemma within {x : RunM (Recorded σ) υ α} {own : υ} (h : x.Follows { s with own } c) :
    (within own x : RunM (Recorded σ) τ α).Follows s c :=
  h

/-- A notification fires its event if a callback hears of it. -/
lemma notify (event : α → Event) (f : Option (α → CallerM σ Unit)) (a : α) {hears : Event → Bool}
    (h : hears (event a) = f.isSome) :
    (notify (f.map fun f a => CallerM.recorded (event a) none (fun _ => none) (f a)) a :
      RunM (Recorded σ) τ Unit).Follows s (.firing ([event a].filter hears)) := by
  cases f with
  | none =>
    rw [List.filter_cons_of_neg (ne_true_of_eq_false h)]
    exact pure ()
  | some f =>
    rw [List.filter_cons_of_pos h]
    exact call _ _ _ _

end Follows

end RunM

end QueryPlan
